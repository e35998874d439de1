import Qapp.Ring.Delivery
import Qapp.Spi.Neighbours
import Qapp.Spi.Transport

/-!
# The writes of `ring_send` as single transfers

`qcspi_write_addr_align` reads the word at either edge of a range and writes it back whole,
and the slave and the other threads may run between any two of its calls. In a ring of whole
words no word of a slot holds a byte of anything else.
-/

namespace Qapp.RingTx
open ByteMem Cyclic
open Spi (AgreeOn InRange Remote Transfers TransportErr WordOp Words qcspiTransportWrite)

/-- The control block and the descriptors are `__aligned(4)`. The buffers are aligned if the
pool is and their size is a number of words. -/
structure WordAligned (r : Ring) : Prop where
  ctrl : r.ctrlBlockAddr % 4 = 0
  descs : r.txDescBase % 4 = 0
  bufs : r.txBufBase % 4 = 0
  size : r.txBufSize % 4 = 0

/-- The write into its slot that a thread is at, as the calls it makes. -/
def Pc.script (r : Ring) : Pc → Option (Words (Except TransportErr Unit))
  | .filling data w =>
    some (qcspiTransportWrite true (r.bufAddr w) (some (store (fun _ => 0) 0 data)) data.length)
  | .describing data w =>
    some (qcspiTransportWrite true (r.descAddr w)
      (some (store (fun _ => 0) 0 (descriptor (r.bufAddr w) data.length))) 8)
  | _ => none

/-- Where such a write that returns 0 leads. -/
def Pc.written : Pc → Pc
  | .filling data w => .describing data w
  | .describing data w => .publishing data w
  | p => p

/-- The ring with what each thread has still to call of its write into the slot. -/
structure Fine where
  ring : State
  left : Nat → Option (Words (Except TransportErr Unit))

/-- The write of the index is one word, and one call. -/
inductive FineStep (r : Ring) : Fine → Fine → Prop
  /-- All but the writes into the slot. -/
  | step {f : Fine} {t : State} (h : Step r f.ring t)
      (kept : ∀ i, (f.ring.pc i).script r ≠ none → t.pc i = f.ring.pc i) :
      FineStep r f { f with ring := t }
  | start (f : Fine) (i : Nat) {script : Words (Except TransportErr Unit)}
      (at' : (f.ring.pc i).script r = some script) (fresh : f.left i = none) :
      FineStep r f { f with left := Function.update f.left i (some script) }
  | transfer (f : Fine) (i : Nat) {op : WordOp} {next : op.Ans → Words (Except TransportErr Unit)}
      {x : op.Ans} {m' : Mem} (busy : f.left i = some (.call op next))
      (answer : Remote f.ring.mem op x m') :
      FineStep r f
        ⟨{ f.ring with mem := m' }, Function.update f.left i (some (next x))⟩
  | finish (f : Fine) (i : Nat) (done : f.left i = some (.ret (.ok ()))) :
      FineStep r f
        ⟨f.ring.move i (f.ring.pc i).written, Function.update f.left i none⟩

inductive FineReachable (r : Ring) (start : State) : Fine → Prop
  | start : FineReachable r start ⟨start, fun _ => none⟩
  | next {f g : Fine} : FineReachable r start f → FineStep r f g → FineReachable r start g

variable {r : Ring} {base old : Nat} {s t : State} {c : Counters}

/-! ## Whole words -/

theorem WordAligned.bufAddr (al : WordAligned r) (w : Nat) : r.bufAddr w % 4 = 0 := by
  have := al.bufs
  have := Nat.mul_mod w r.txBufSize 4
  rw [al.size, Nat.mul_zero, Nat.zero_mod] at this
  unfold Ring.bufAddr
  omega

theorem WordAligned.descAddr (al : WordAligned r) (w : Nat) : r.descAddr w % 4 = 0 := by
  have := al.descs
  unfold Ring.descAddr
  omega

/-- What others write is no word of the ring, as long as it is no byte of it. -/
theorem WordAligned.elsewhere (al : WordAligned r) {a n x : Nat} (some : n ≠ 0)
    (outside : ∀ y, InRange a n y → ¬r.Owns y) (transfers : Transfers n a (x / 4)) :
    ¬r.Owns x := by
  obtain ⟨y, same, byte⟩ := transfers.byte some
  have apart := outside y byte
  have := al.bufs
  have := al.descs
  have := al.ctrl
  have whole := Nat.mul_mod r.txDescCount r.txBufSize 4
  rw [al.size, Nat.mul_zero, Nat.zero_mod] at whole
  unfold Ring.Owns Ring.wrIdxAddr Ring.rdIdxAddr at *
  omega

/-! ## What is left of a write -/

/-- The part of the slot that a thread is writing to. -/
def Pc.Area (r : Ring) (x : Nat) : Pc → Prop
  | .filling _ w => InRange (r.bufAddr w) r.txBufSize x
  | .describing _ w => InRange (r.descAddr w) 8 x
  | _ => False

theorem within_words {addr n : Nat} {data : Mem} {F : Nat → Prop} (small : n < 2 ^ 16)
    (fits : addr + n ≤ 2 ^ 32) (words : ∀ x, Transfers n addr (x / 4) → F x) :
    (qcspiTransportWrite true addr (some data) n).All (WordOp.Within F) := by
  have calls : (Spi.qcspiWriteAddrAlign n addr (some data)).All (WordOp.Within F) := by
    apply (Spi.qcspiWriteAddrAlign_within small fits).mono
    rintro (_ | _ | _) within
    · exact fun x hx => words x (within x hx)
    · exact fun x hx => words x (within x hx)
    · trivial
  unfold qcspiTransportWrite
  rw [Nat.mod_eq_of_lt small]
  dsimp only
  split
  · trivial
  · exact calls.bind fun ret => by cases ret <;> trivial

/-- Each call of a write that has no byte of the ring goes elsewhere. -/
theorem WordAligned.others (al : WordAligned r) {addr n : Nat} {data : Mem} (nonempty : n ≠ 0)
    (small : n < 2 ^ 16) (fits : addr + n ≤ 2 ^ 32) (outside : ∀ y, InRange addr n y → ¬r.Owns y) :
    (qcspiTransportWrite true addr (some data) n).All fun op =>
      ∀ (s : State) (x : op.Ans) (m' : Mem), Remote s.mem op x m' →
        Step r s { s with mem := m' } := by
  apply (within_words small fits fun _ words => al.elsewhere nonempty outside words).mono
  intro op within s x m' answer
  refine .elsewhere s m' fun y owns => ?_
  have apart : ∀ z, ¬r.Owns z → ¬z = y := fun z out same => out (same ▸ owns)
  exact Spi.Remote.leaves (G := (· = y)) within apart answer (fun _ _ => rfl) y rfl

/-- What thread knowledge a write that returns 0 leads to, from wherever it has come to. -/
structure Writing (r : Ring) (m : Mem) (c : Counters) (p : Pc)
    (q : Words (Except TransportErr Unit)) : Prop where
  script : p.script r ≠ none
  within : q.All (WordOp.Within (p.Area r))
  ends : ∀ u, q.Runs Remote m (.ok ()) u → PcOk r u c p.written

/-- The thread writes into the slot at the write index. -/
theorem Writing.slot {m : Mem} {p : Pc} {q : Words (Except TransportErr Unit)}
    (writing : Writing r m c p q) (ok : PcOk r m c p) {x : Nat} (area : p.Area r x) :
    r.InSlot (c.wr % r.txDescCount) x := by
  cases p with
  | filling data w =>
    obtain ⟨_, rfl, _⟩ := ok
    exact .inl area
  | describing data w =>
    obtain ⟨_, rfl, _⟩ := ok
    exact .inr area
  | _ => exact absurd rfl writing.script

/-- What the transport leaves when it returns 0. -/
theorem transfers_store {m u : Mem} {addr : Nat} {bytes : List UInt8}
    (small : bytes.length < 2 ^ 16) (fits : addr + bytes.length ≤ 2 ^ 32)
    (run : (qcspiTransportWrite true addr (some (store (fun _ => 0) 0 bytes))
      bytes.length).Runs Remote m (.ok ()) u) : u = store m addr bytes := by
  obtain ⟨_, driver⟩ := Spi.qcspiTransportWrite_ok run
  rw [Nat.mod_eq_of_lt small] at driver
  rw [Spi.qcspiWriteAddrAlign_ok driver small fits, load_store_same]

theorem Writing.fill (ap : Apart r) (al : WordAligned r) (inv : Inv r base old s c) {i w : Nat}
    {data : Msg} (at' : s.pc i = .filling data w) :
    Writing r s.mem c (.filling data w) (qcspiTransportWrite true (r.bufAddr w)
      (some (store (fun _ => 0) 0 data)) data.length) := by
  have ok := inv.threads i
  rw [at'] at ok
  obtain ⟨⟨short, fits⟩, here, _⟩ := ok
  have hw : w < r.txDescCount := by
    rw [here]
    exact Nat.mod_lt _ (by have := ap.count; omega)
  have small : data.length < 2 ^ 16 := by omega
  refine ⟨nofun, within_words small (ap.buf_fits hw fits) fun x words => ?_, fun u run => ?_⟩
  · have := al.bufAddr w
    have := al.size
    obtain ⟨from_, upTo⟩ := words
    exact ⟨by omega, by omega⟩
  · rw [transfers_store small (ap.buf_fits hw fits) run]
    simpa [State.move, Pc.written] using (inv.fill ap at').threads i

theorem Writing.describe (ap : Apart r) (al : WordAligned r) (inv : Inv r base old s c)
    {i w : Nat} {data : Msg} (at' : s.pc i = .describing data w) :
    Writing r s.mem c (.describing data w) (qcspiTransportWrite true (r.descAddr w)
      (some (store (fun _ => 0) 0 (descriptor (r.bufAddr w) data.length))) 8) := by
  have ok := inv.threads i
  rw [at'] at ok
  obtain ⟨_, here, _⟩ := ok
  have hw : w < r.txDescCount := by
    rw [here]
    exact Nat.mod_lt _ (by have := ap.count; omega)
  have length : (descriptor (r.bufAddr w) data.length).length = 8 := length_descriptor _ _
  have fits := ap.desc_fits hw
  refine ⟨nofun, within_words (by decide) fits fun x words => ?_, fun u run => ?_⟩
  · have := al.descAddr w
    obtain ⟨from_, upTo⟩ := words
    exact ⟨by omega, by omega⟩
  · rw [← length] at fits run
    rw [transfers_store (by rw [length]; decide) fits run]
    simpa [State.move, Pc.written] using (inv.describe ap at').threads i

theorem Writing.started (ap : Apart r) (al : WordAligned r) (inv : Inv r base old s c) {i : Nat}
    {q : Words (Except TransportErr Unit)} (at' : (s.pc i).script r = some q) :
    Writing r s.mem c (s.pc i) q := by
  cases h : s.pc i with
  | filling data w =>
    rw [h] at at'
    obtain rfl := Option.some.inj at'
    exact .fill ap al inv h
  | describing data w =>
    rw [h] at at'
    obtain rfl := Option.some.inj at'
    exact .describe ap al inv h
  | _ =>
    rw [h] at at'
    cases at'

/-- Another call of the same write. -/
theorem Writing.next {m m' : Mem} {p : Pc} {op : WordOp}
    {next : op.Ans → Words (Except TransportErr Unit)} {x : op.Ans}
    (writing : Writing r m c p (.call op next)) (answer : Remote m op x m') :
    Writing r m' c p (next x) where
  script := writing.script
  within := writing.within.2 x
  ends u run := writing.ends u (.call answer run)

/-- A thread knows nothing of the slave's position. -/
theorem PcOk.counters {m : Mem} {c' : Counters} {p : Pc} (ok : PcOk r m c p) (wr : c'.wr = c.wr)
    (cached : c'.cached = c.cached) : PcOk r m c' p := by
  cases p with
  | refreshing | filling | describing | publishing =>
    simp only [PcOk, wr, cached] at ok ⊢
    exact ok
  | _ => exact ok

/-- What others do to the memory leaves the slot alone. -/
theorem Writing.others {m m' : Mem} {c' : Counters} {p : Pc}
    {q : Words (Except TransportErr Unit)} (writing : Writing r m c p q) (ok : PcOk r m c p)
    (wr : c'.wr = c.wr) (cached : c'.cached = c.cached)
    (same : ∀ x, r.InSlot (c.wr % r.txDescCount) x → m' x = m x) : Writing r m' c' p q where
  script := writing.script
  within := writing.within
  ends := by
    intro u run
    let F x := r.InSlot (c.wr % r.txDescCount) x
    have inside : q.All (WordOp.Within F) := by
      apply writing.within.mono
      rintro (_ | _ | _) within
      · exact fun x hx => writing.slot ok (within x hx)
      · exact fun x hx => writing.slot ok (within x hx)
      · trivial
    have again : Script.Local Remote (WordOp.Within F) (AgreeOn F) (AgreeOn fun _ => False) :=
      Spi.Remote.local fun _ _ => id
    have before : AgreeOn F m' m := fun x hx => same x hx
    obtain ⟨u', run', alike⟩ := again.again run inside before
    exact ((writing.ends u' run').congr alike).counters wr cached

/-! ## Steps -/

theorem script_holding {p : Pc} (script : p.script r ≠ none) : p.Holding := by
  cases p with
  | idle | locking => exact absurd rfl script
  | _ => trivial

/-- While a thread writes to its slot, no other one and no step of the slave does. -/
theorem Inv.step_beside (inv : Inv r base old s c) (ap : Apart r) (h : Step r s t) {i : Nat}
    (busy : (s.pc i).script r ≠ none) (kept : t.pc i = s.pc i) :
    ∃ c', Inv r base old t c' ∧ c'.wr = c.wr ∧ c'.cached = c.cached ∧
      ∀ x, r.InSlot (c.wr % r.txDescCount) x → t.mem x = s.mem x := by
  have hn : 0 < r.txDescCount := by have := ap.count; omega
  have held := script_holding busy
  have mine := inv.holder i held
  have alone : ∀ j, (s.pc j).Holding → j = i := by
    intro j hj
    by_contra other
    exact inv.others_free held j other hj
  cases h with
  | call j data idle nonempty short fits =>
    exact ⟨c, inv.move (by rw [idle]; rfl) (by rw [idle]; exact Iff.rfl) ⟨short, fits⟩, rfl, rfl,
      fun _ _ => rfl⟩
  | timeout j data at' =>
    exact ⟨c, inv.move (by rw [at']; rfl) (by rw [at']; exact Iff.rfl) trivial, rfl, rfl,
      fun _ _ => rfl⟩
  | lock j data at' free => rw [mine] at free; cases free
  | fill j data w at' | describe j data w at' =>
    obtain rfl := alone j (by rw [at']; trivial)
    rw [at'] at kept
    simp [State.move] at kept
  | look j data at' | refresh j data w at' | publish j data w at' | unlock j data at' =>
    obtain rfl := alone j (by rw [at']; trivial)
    rw [at'] at busy
    exact absurd rfl busy
  | consume published => exact ⟨_, inv.consume published, rfl, rfl, fun _ _ => rfl⟩
  | release k read =>
    exact ⟨_, inv.release ap read, rfl, rfl,
      fun x hx => slot_kept ap (Nat.mod_lt _ hn) (.inr rfl) hx⟩
  | elsewhere m' outside =>
    exact ⟨c, inv.elsewhere ap outside, rfl, rfl,
      fun x hx => outside x (ap.slot_owned (Nat.mod_lt _ hn) hx).1⟩

/-- A call of a write under way changes the thread's own slot only, and only where it writes. -/
theorem Writing.unchanged {m m' : Mem} {p : Pc} {op : WordOp}
    {next : op.Ans → Words (Except TransportErr Unit)} {x : op.Ans}
    (writing : Writing r m c p (.call op next)) (answer : Remote m op x m') {y : Nat}
    (outside : ¬p.Area r y) : m' y = m y :=
  Spi.Remote.leaves (G := (· = y)) writing.within.1 (fun _ area same => outside (same ▸ area))
    answer (fun _ _ => rfl) y rfl

/-- A descriptor is no part of its buffer. -/
theorem Apart.desc_buf (ap : Apart r) {w x : Nat} (hw : w < r.txDescCount)
    (buf : InRange (r.bufAddr w) r.txBufSize x) : ¬InRange (r.descAddr w) 8 x := by
  have := mul_step (k := r.txBufSize) hw
  have := ap.desc hw
  have := ap.bufs_descs
  unfold InRange at *
  rcases ap.buf hw with hb | hz <;> omega

theorem Inv.transfer (inv : Inv r base old s c) (ap : Apart r) {i : Nat} {m' : Mem}
    {op : WordOp} {next : op.Ans → Words (Except TransportErr Unit)} {x : op.Ans}
    (writing : Writing r s.mem c (s.pc i) (.call op next)) (answer : Remote s.mem op x m') :
    Inv r base old { s with mem := m' } c := by
  have held := script_holding writing.script
  have ok : PcOk r m' c (s.pc i) := by
    have ok := inv.threads i
    cases h : s.pc i with
    | describing data w =>
      rw [h] at ok writing
      obtain ⟨fits, here, room, buf⟩ := ok
      have hw : w < r.txDescCount := by
        rw [here]
        exact Nat.mod_lt _ (by have := ap.count; omega)
      refine ⟨fits, here, room, ?_⟩
      conv_rhs => rw [← buf]
      exact load_congr fun k hk =>
        writing.unchanged answer (ap.desc_buf hw ⟨by omega, by omega⟩)
    | filling data w =>
      rw [h] at ok
      exact ok
    | _ => exact absurd (by rw [h]; rfl) writing.script
  have moved := inv.write ap held rfl held (fun y out => writing.unchanged answer
    fun area => out (writing.slot (inv.threads i) area)) ok
  simpa [State.move] using moved

/-- The invariant of the ring, and of every write under way. -/
structure FineInv (r : Ring) (base old : Nat) (f : Fine) (c : Counters) : Prop where
  ring : Inv r base old f.ring c
  writing : ∀ i q, f.left i = some q → Writing r f.ring.mem c (f.ring.pc i) q

variable {f g : Fine}

theorem Inv.only (inv : Inv r base old s c) {i j : Nat} {m : Mem}
    {q q' : Words (Except TransportErr Unit)} (first : Writing r m c (s.pc i) q)
    (second : Writing r m c (s.pc j) q') : j = i := by
  by_contra other
  exact inv.others_free (script_holding first.script) j other (script_holding second.script)

theorem fine_step_inv (ap : Apart r) (al : WordAligned r) (inv : FineInv r base old f c)
    (h : FineStep r f g) : ∃ c', FineInv r base old g c' := by
  cases h with
  | step h kept =>
    by_cases busy : ∃ i q, f.left i = some q
    · obtain ⟨i, q, left⟩ := busy
      have writing := inv.writing i q left
      obtain ⟨c', ring, wr, cached, same⟩ :=
        inv.ring.step_beside ap h writing.script (kept i writing.script)
      refine ⟨c', ring, fun j q' left' => ?_⟩
      have writing' := inv.writing j q' left'
      rw [kept j writing'.script]
      exact writing'.others (inv.ring.threads j) wr cached same
    · obtain ⟨c', ring⟩ := step_inv ap inv.ring h
      exact ⟨c', ring, fun i q left => (busy ⟨i, q, left⟩).elim⟩
  | @start i script at' fresh =>
    refine ⟨c, inv.ring, fun j q left => ?_⟩
    by_cases here : j = i
    · subst here
      simp only [Function.update_self, Option.some.injEq] at left
      subst left
      exact .started ap al inv.ring at'
    · simp only [Function.update_of_ne here] at left
      exact inv.writing j q left
  | @transfer i op next x m' busy answer =>
    have writing := inv.writing i _ busy
    have after := writing.next answer
    have ok := inv.ring.threads i
    refine ⟨c, inv.ring.transfer ap writing answer, fun j q left => ?_⟩
    · by_cases here : j = i
      · subst here
        simp only [Function.update_self, Option.some.injEq] at left
        subst left
        exact after
      · simp only [Function.update_of_ne here] at left
        exact absurd (inv.ring.only writing (inv.writing j q left)) here
  | finish i done =>
    have writing := inv.writing i _ done
    have ok := writing.ends _ (.ret _ _)
    refine ⟨c, inv.ring.move ?_ ?_ ok, fun j q left => ?_⟩
    · cases h : f.ring.pc i with
      | _ => rfl
    · cases h : f.ring.pc i with
      | _ => exact Iff.rfl
    · have here : j ≠ i := by
        rintro rfl
        simp only [Function.update_self] at left
        cases left
      simp only [Function.update_of_ne here] at left
      exact absurd (inv.ring.only writing (inv.writing j q left)) here

theorem fine_inv (ap : Apart r) (al : WordAligned r) {s₀ : State} (start : Start r s₀)
    (run : FineReachable r s₀ f) : ∃ c, FineInv r s₀.txRdIdx (s₀.outstanding r) f c := by
  induction run with
  | start => exact ⟨_, start_inv ap start, nofun⟩
  | next _ step ih =>
    obtain ⟨c, inv⟩ := ih
    exact fine_step_inv ap al inv step

/-- An address of a slot with a message that is published and not consumed. -/
def State.Pending (r : Ring) (s : State) (x : Nat) : Prop :=
  ∃ j, j < s.outstanding r ∧ r.InSlot ((s.pos + j) % r.txDescCount) x

theorem FineInv.area_free (inv : FineInv r base old f c) (ap : Apart r) {i x : Nat}
    {q : Words (Except TransportErr Unit)} (left : f.left i = some q)
    (area : (f.ring.pc i).Area r x) : ¬f.ring.Pending r x := by
  have hn : 0 < r.txDescCount := by have := ap.count; omega
  rintro ⟨j, hj, pending⟩
  rw [inv.ring.outstanding_eq] at hj
  rw [inv.ring.published_slot] at pending
  have apart := inv.ring.slot_ne (k := c.pos + j) (by omega) (by omega)
  have mine := (inv.writing i q left).slot (inv.ring.threads i) area
  exact ap.slots_apart (Nat.mod_lt _ hn) (Nat.mod_lt _ hn) apart mine pending

theorem FineInv.pending_unchanged (inv : FineInv r base old f c) (ap : Apart r)
    (h : FineStep r f g) {x : Nat} (pending : f.ring.Pending r x) :
    g.ring.mem x = f.ring.mem x := by
  cases h with
  | step h =>
    obtain ⟨j, hj, hx⟩ := pending
    exact inv.ring.slot_unchanged ap h hj hx
  | transfer i busy answer =>
    exact (inv.writing i _ busy).unchanged answer fun area =>
      inv.area_free ap busy area pending
  | start | finish => rfl

/-- Whatever runs between the single calls of a write: in a ring of whole words no call of
the host reaches a slot the slave has still to read, one slot stays empty, and the slave reads
exactly the messages of the calls that return 0. -/
theorem ring_send_delivers (ap : Apart r) (al : WordAligned r) {s₀ : State} (start : Start r s₀)
    (run : FineReachable r s₀ f) :
    (∀ i x, (f.ring.pc i).Writes r x → ¬f.ring.Pending r x) ∧
    (∀ i q, f.left i = some q → q.All (WordOp.Within fun x => ¬f.ring.Pending r x)) ∧
    (∀ g, FineStep r f g → ∀ x, f.ring.Pending r x → g.ring.mem x = f.ring.mem x) ∧
    f.ring.outstanding r ≤ r.txDescCount - 1 ∧
    (f.ring.taken ++ f.ring.pending r).drop (s₀.outstanding r) = f.ring.sent := by
  obtain ⟨c, inv⟩ := fine_inv ap al start run
  refine ⟨?_, ?_, fun g h x => inv.pending_unchanged ap h, ?_, inv.ring.taken_pending⟩
  · rintro i x writes ⟨j, hj, hx⟩
    exact inv.ring.writes_free ap writes hj hx
  · intro i q left
    apply (inv.writing i q left).within.mono
    rintro (_ | _ | _) within
    · exact fun x hx => inv.area_free ap left (within x hx)
    · exact fun x hx => inv.area_free ap left (within x hx)
    · trivial
  · have h1 := inv.ring.cached_le
    have h2 := inv.ring.read_le
    have h4 := inv.ring.room
    rw [inv.ring.outstanding_eq]
    omega

/-! ## Writes that nothing interrupts -/

theorem FineReachable.transfers {s₀ : State} {f : Fine} {i : Nat}
    {q : Words (Except TransportErr Unit)} {a : Except TransportErr Unit} {m' : Mem}
    (run : FineReachable r s₀ f) (left : f.left i = some q)
    (calls : q.Runs Remote f.ring.mem a m') : FineReachable r s₀
      ⟨{ f.ring with mem := m' }, Function.update f.left i (some (.ret a))⟩ := by
  generalize before : f.ring.mem = m at calls
  induction calls generalizing f with
  | ret a m =>
    subst before
    rwa [← left, Function.update_eq_self]
  | call step _ ih =>
    subst before
    have once := run.next (.transfer f i left step)
    have rest := ih once (Function.update_self ..) rfl
    rwa [Function.update_idem] at rest

/-- The three steps of a whole write. -/
theorem FineReachable.written {s₀ : State} {i : Nat} {q : Words (Except TransportErr Unit)}
    {m' : Mem} (run : FineReachable r s₀ ⟨s, fun _ => none⟩)
    (at' : (s.pc i).script r = some q) (calls : q.Runs Remote s.mem (.ok ()) m') :
    FineReachable r s₀ ⟨{ s.move i (s.pc i).written with mem := m' }, fun _ => none⟩ := by
  have started := run.next (.start _ i at' rfl)
  have ended := started.transfers (Function.update_self ..) calls
  have finished := ended.next (.finish _ i (Function.update_self ..))
  simpa [State.move] using finished

/-- A call under way has data. -/
def Pc.HasData : Pc → Prop
  | .idle => True
  | .locking data | .looking data | .refreshing data _ | .filling data _ | .describing data _
  | .publishing data _ | .unlocking data => data ≠ []

theorem hasData_move (all : ∀ j, (s.pc j).HasData) {i : Nat} {p : Pc} (data : p.HasData) :
    ∀ j, ((s.move i p).pc j).HasData := by
  intro j
  by_cases here : j = i
  · subst here
    simpa only [State.move, Function.update_self] using data
  · simpa only [State.move, Function.update_of_ne here] using all j

theorem step_hasData (h : Step r s t) (all : ∀ j, (s.pc j).HasData) :
    ∀ j, (t.pc j).HasData := by
  cases h with
  | call i data idle nonempty =>
    exact hasData_move all (List.length_pos_iff.mp nonempty)
  | timeout | unlock => exact hasData_move all trivial
  | consume | release | elsewhere => exact all
  | look i data at' =>
    have data := all i
    rw [at'] at data
    split
    · exact hasData_move all data
    · unfold State.enter
      split
      · exact hasData_move all trivial
      · exact hasData_move all data
  | refresh i data w at' =>
    have data := all i
    rw [at'] at data
    unfold State.enter
    split
    · exact hasData_move all trivial
    · exact hasData_move all data
  | lock i data at' | fill i data w at' | describe i data w at' | publish i data w at' =>
    have data := all i
    rw [at'] at data
    exact hasData_move all data

/-- A write of any bytes that fit has a run, and stores them. -/
theorem transfers_run {m : Mem} {addr : Nat} {bytes : List UInt8} (some : bytes ≠ [])
    (small : bytes.length < 2 ^ 16) (fits : addr + bytes.length ≤ 2 ^ 32) :
    (qcspiTransportWrite true addr (Option.some (store (fun _ => 0) 0 bytes)) bytes.length).Runs
      Remote m (.ok ()) (store m addr bytes) := by
  obtain ⟨m', calls⟩ :=
    Spi.qcspiWriteAddrAlign_runs (store (fun _ => 0) 0 bytes) m bytes.length addr
  have run : (qcspiTransportWrite true addr (Option.some (store (fun _ => 0) 0 bytes))
      bytes.length).Runs Remote m (.ok ()) m' := by
    unfold qcspiTransportWrite
    rw [Nat.mod_eq_of_lt small]
    simp only [List.length_eq_zero_iff, some, if_false, Bool.not_true, Bool.false_eq_true]
    exact calls.bind (.ret _ _)
  rwa [← transfers_store small fits run]

theorem script_move {i j : Nat} {p : Pc} (at' : (s.pc i).script r = none)
    (busy : (s.pc j).script r ≠ none) : (s.move i p).pc j = s.pc j := by
  have other : j ≠ i := by
    rintro rfl
    exact busy at'
  simp only [State.move, Function.update_of_ne other]

theorem Reachable.hasData {s₀ : State} (start : Start r s₀) (run : Reachable r s₀ s) :
    ∀ j, (s.pc j).HasData := by
  induction run with
  | start =>
    intro j
    rw [start.idle j]
    trivial
  | next _ step ih => exact step_hasData step ih

/-- The steps with whole writes are runs of single calls. -/
theorem Reachable.fine (ap : Apart r) {s₀ : State} (start : Start r s₀)
    (run : Reachable r s₀ s) : FineReachable r s₀ ⟨s, fun _ => none⟩ := by
  induction run with
  | start => exact .start
  | @next s t run step ih =>
    obtain ⟨c, inv⟩ := reachable_inv ap start run
    have nonempty := run.hasData start
    have other {i : Nat} {p : Pc} (at' : (s.pc i).script r = none) :
        ∀ j, (s.pc j).script r ≠ none → (s.move i p).pc j = s.pc j :=
      fun j busy => script_move at' busy
    have step' := step
    cases step with
    | fill i data w at' =>
      have ok := inv.threads i
      have some := nonempty i
      rw [at'] at ok some
      obtain ⟨⟨short, fits⟩, here, _⟩ := ok
      have hw : w < r.txDescCount := here ▸ Nat.mod_lt _ (by have := ap.count; omega)
      have calls := transfers_run some (by omega) (ap.buf_fits hw fits) (m := s.mem)
      have written := ih.written (by rw [at']; rfl) calls
      rwa [at'] at written
    | describe i data w at' =>
      have ok := inv.threads i
      rw [at'] at ok
      obtain ⟨_, here, _⟩ := ok
      have hw : w < r.txDescCount := here ▸ Nat.mod_lt _ (by have := ap.count; omega)
      have length := length_descriptor (r.bufAddr w) data.length
      have calls := transfers_run (List.length_pos_iff.mp (by rw [length]; decide))
        (by rw [length]; decide) (by rw [length]; exact ap.desc_fits hw) (m := s.mem)
      rw [length] at calls
      have written := ih.written (by rw [at']; rfl) calls
      rwa [at'] at written
    | call i data idle => exact ih.next (.step step' (other (by rw [idle]; rfl)))
    | timeout i data at' | lock i data at' | publish i data w at' | unlock i data at' =>
      exact ih.next (.step step' (other (by rw [at']; rfl)))
    | look i data at' =>
      refine ih.next (.step step' ?_)
      split
      · exact other (by rw [at']; rfl)
      · unfold State.enter
        split
        · exact other (by rw [at']; rfl)
        · exact other (by rw [at']; rfl)
    | refresh i data w at' =>
      refine ih.next (.step step' ?_)
      unfold State.enter
      split
      · exact other (by rw [at']; rfl)
      · exact other (by rw [at']; rfl)
    | consume | release | elsewhere => exact ih.next (.step step' fun _ _ => rfl)

/-- `[7]` has been read, `[8]` is published, and for `[9, 9]` its first word has been read. -/
theorem three_ring_send_delivers : ∃ f, FineReachable threeRing smallStart f ∧
    f.ring.taken = [[7]] ∧ f.ring.outstanding threeRing = 1 ∧ f.left 1 ≠ none ∧
    (∀ q, f.left 1 = some q →
      q.All (WordOp.Within fun x => ¬f.ring.Pending threeRing x)) ∧
    (f.ring.taken ++ f.ring.pending threeRing).drop (smallStart.outstanding threeRing) =
      f.ring.sent := by
  have apart : Apart threeRing := by constructor <;> decide
  have aligned : WordAligned threeRing := by constructor <;> decide
  have start : Start threeRing smallStart := by constructor <;> first | decide | exact fun _ => rfl
  have idle : Reachable threeRing smallStart smallStart := .start
  have called := idle.next (.call _ 0 [7] rfl (by decide) (by decide) (by decide))
  have called₂ := called.next (.call _ 1 [9, 9] rfl (by decide) (by decide) (by decide))
  have locked := called₂.next (.lock _ 0 [7] rfl rfl)
  have looked := locked.next (.look _ 0 [7] rfl)
  have filled := looked.next (.fill _ 0 [7] 0 rfl)
  have described := filled.next (.describe _ 0 [7] 0 rfl)
  have published := described.next (.publish _ 0 [7] 0 rfl)
  have unlocked := published.next (.unlock _ 0 [7] rfl)
  have consumed := unlocked.next (.consume _ (by decide))
  have released := consumed.next (.release _ 1 (by decide))
  have called := released.next (.call _ 0 [8] rfl (by decide) (by decide) (by decide))
  have locked := called.next (.lock _ 0 [8] rfl rfl)
  have looked := locked.next (.look _ 0 [8] rfl)
  have filled := looked.next (.fill _ 0 [8] 1 rfl)
  have described := filled.next (.describe _ 0 [8] 1 rfl)
  have published := described.next (.publish _ 0 [8] 1 rfl)
  have unlocked := published.next (.unlock _ 0 [8] rfl)
  have locked := unlocked.next (.lock _ 1 [9, 9] rfl rfl)
  have looked := locked.next (.look _ 1 [9, 9] rfl)
  have refreshed := looked.next (.refresh _ 1 [9, 9] 2 rfl)
  have started := (refreshed.fine apart start).next (.start _ 1 rfl rfl)
  have read := started.next (.transfer _ 1 rfl (Spi.Remote.serves_read _ _ 4 308))
  obtain ⟨_, calls, _, _, delivered⟩ := ring_send_delivers apart aligned start read
  exact ⟨_, read, by decide, by decide, nofun, calls 1, delivered⟩

/-- A ring of three-byte buffers. -/
def oddRing : Ring := { threeRing with txBufSize := 3 }

/-- The word in which the second buffer begins holds the first one. It is to be written back
while the slave has still to read the message there. -/
theorem odd_ring_rewrites : ∃ f, FineReachable oddRing smallStart f ∧ Start oddRing smallStart ∧
    Apart oddRing ∧ f.ring.Pending oddRing 300 ∧ ∃ bytes next,
      f.left 0 = some (.call (.write 300 bytes) next) ∧ bytes.length = 4 := by
  have apart : Apart oddRing := by constructor <;> decide
  have start : Start oddRing smallStart := by constructor <;> first | decide | exact fun _ => rfl
  have idle : Reachable oddRing smallStart smallStart := .start
  have called := idle.next (.call _ 0 [7] rfl (by decide) (by decide) (by decide))
  have locked := called.next (.lock _ 0 [7] rfl rfl)
  have looked := locked.next (.look _ 0 [7] rfl)
  have filled := looked.next (.fill _ 0 [7] 0 rfl)
  have described := filled.next (.describe _ 0 [7] 0 rfl)
  have published := described.next (.publish _ 0 [7] 0 rfl)
  have unlocked := published.next (.unlock _ 0 [7] rfl)
  have called := unlocked.next (.call _ 0 [8] rfl (by decide) (by decide) (by decide))
  have locked := called.next (.lock _ 0 [8] rfl rfl)
  have looked := locked.next (.look _ 0 [8] rfl)
  have started := (looked.fine apart start).next (.start _ 0 rfl rfl)
  have read := started.next (.transfer _ 0 rfl (Spi.Remote.serves_read _ _ 4 300))
  have waited := read.next (.transfer _ 0 rfl (.nop _ (.ok ())))
  exact ⟨_, waited, start, apart, ⟨0, by decide, .inl ⟨by decide, by decide⟩⟩, _, _, rfl,
    Spi.length_patch ..⟩

end Qapp.RingTx
