import Qapp.Ring.Receiving

/-!
# `ring_recv` over a transport that fails

A read or write that fails ends the call with its error. A failed write may have
changed any of the bytes it was to write.
-/

namespace Qapp.RingRx
open ByteMem Cyclic

variable {r : Ring} {base : Nat} {s t : State} {rd : Nat} {stale lossy : Bool}

/-- The call of thread `i` returns a transport error and leaves `m'` behind. -/
def State.abort (s : State) (i : Nat) (m' : Mem) : State := { s.unlock i with mem := m' }

/-- `lossy` allows the write of `rx_rd_idx` to fail, after the cached index has been
advanced, and a failed write of the cleared descriptor to spoil it. The slave publishes no
message without bytes. -/
inductive FaultStep (r : Ring) (stale lossy : Bool) : State → State → Prop
  | step {s t : State} (h : Step r stale s t) (data : [] ∉ t.published) :
      FaultStep r stale lossy s t
  | look (s : State) (i : Nat) (call : Call) (at' : s.pc i = .looking call) :
      FaultStep r stale lossy s (s.abort i s.mem)
  | reread (s : State) (i : Nat) (call : Call) (at' : s.pc i = .rereading call) :
      FaultStep r stale lossy s (s.abort i s.mem)
  | fetch (s : State) (i : Nat) (call : Call) (rdIdx : Nat)
      (at' : s.pc i = .fetching call rdIdx) : FaultStep r stale lossy s (s.abort i s.mem)
  | load (s : State) (i rdIdx bufAddr dataLen : Nat)
      (at' : s.pc i = .loading rdIdx bufAddr dataLen) :
      FaultStep r stale lossy s (s.abort i s.mem)
  | clear (s : State) (i : Nat) (data : Msg) (rdIdx bufAddr : Nat) (m' : Mem)
      (at' : s.pc i = .clearing data rdIdx bufAddr)
      (outside : ∀ x, ¬(r.descAddr rdIdx ≤ x ∧ x < r.descAddr rdIdx + 8) → m' x = s.mem x)
      (allowed : lossy = true ∨ Holds r m' rdIdx data) :
      FaultStep r stale lossy s (s.abort i m')
  | advance (s : State) (i : Nat) (data : Msg) (rdIdx : Nat) (m' : Mem)
      (at' : s.pc i = .advancing data rdIdx)
      (outside : ∀ x, ¬(r.rdIdxAddr ≤ x ∧ x < r.rdIdxAddr + 4) → m' x = s.mem x)
      (allowed : lossy = true) :
      FaultStep r stale lossy s { s.abort i m' with rxRdIdx := (rdIdx + 1) % r.rxDescCount }

inductive FaultReachable (r : Ring) (stale lossy : Bool) (start : State) : State → Prop
  | start : FaultReachable r stale lossy start start
  | next {s t : State} : FaultReachable r stale lossy start s → FaultStep r stale lossy s t →
      FaultReachable r stale lossy start t

/-- A descriptor that holds its message after all is as if it had not been cleared. -/
theorem Inv.mend (inv : Inv r base s rd) {i w : Nat} (a : Nat) {data : Msg}
    (at' : s.pc i = .advancing data w) (holds : Holds r s.mem w data) :
    Inv r base (s.move i (.clearing data w a)) rd := by
  have held : (s.pc i).Holding := by rw [at']; trivial
  obtain ⟨mine, torn⟩ := inv.mine held
  rw [at'] at mine torn
  have ok : w = rd % r.rxDescCount ∧ s.published[s.received.length]? = some data := by
    have := inv.threads i
    rwa [at'] at this
  obtain ⟨rfl, next⟩ := ok
  have received : (s.move i (.clearing data (rd % r.rxDescCount) a)).received = s.received := by
    unfold State.received
    rw [mine]
    simp [State.inflight, State.move, inv.holder i held, Pc.taken]
  have torn' : (s.move i (.clearing data (rd % r.rxDescCount) a)).torn = 0 := by
    simp [State.torn, State.move, inv.holder i held, Pc.torn]
  have count := inv.count
  exact {
    cached := inv.cached
    read := inv.read
    wr := inv.wr
    count := by rw [received]; exact inv.count
    le := inv.le
    room := inv.room
    order := by rw [received]; exact inv.order
    slots := by
      rw [torn']
      intro j msg hj hp
      by_cases first : rd = base + j
      · obtain rfl : j = s.received.length := by omega
        have hj : s.published[s.received.length]? = some msg := hj
        rw [next] at hj
        cases hj
        rw [← first]
        exact holds
      · refine inv.slots j msg hj ?_
        rw [torn]
        show rd + 1 ≤ base + j
        omega
    holder := by
      intro j hj
      by_cases e : j = i
      · subst e
        exact inv.holder j held
      · simp only [State.move, Function.update_of_ne e] at hj
        exact inv.holder j hj
    owner := by
      intro j hj
      by_cases e : j = i
      · subst e
        simp only [State.move, Function.update_self, Pc.Holding]
      · simpa only [State.move, Function.update_of_ne e] using inv.owner j hj
    threads := by
      rw [received]
      intro j
      by_cases e : j = i
      · subst e
        simp only [State.move, Function.update_self]
        exact ⟨rfl, next⟩
      · simpa only [State.move, Function.update_of_ne e] using
          (inv.threads j).free (inv.others_free held j e) }

theorem Inv.abort (inv : Inv r base s rd) {i : Nat} (held : (s.pc i).Holding)
    (taken : (s.pc i).taken = []) (torn : (s.pc i).torn = 0) :
    Inv r base (s.abort i s.mem) rd :=
  inv.leave (p := .idle) held taken torn not_false trivial

theorem fault_step_inv (ap : Apart r) (inv : Inv r base s rd)
    (h : FaultStep r false false s t) : ∃ rd', Inv r base t rd' := by
  cases h with
  | step h data => exact step_inv ap inv h
  | look i call at' =>
    exact ⟨rd, inv.abort (by rw [at']; trivial) (by rw [at']; rfl) (by rw [at']; rfl)⟩
  | reread i call at' =>
    exact ⟨rd, inv.abort (by rw [at']; trivial) (by rw [at']; rfl) (by rw [at']; rfl)⟩
  | fetch i call w at' =>
    exact ⟨rd, inv.abort (by rw [at']; trivial) (by rw [at']; rfl) (by rw [at']; rfl)⟩
  | load i w a len at' =>
    exact ⟨rd, inv.abort (by rw [at']; trivial) (by rw [at']; rfl) (by rw [at']; rfl)⟩
  | clear i data w a m' at' outside allowed =>
    have holds := allowed.resolve_left Bool.false_ne_true
    have ok := inv.threads i
    rw [at'] at ok
    have same : ∀ x, ¬r.InSlot (rd % r.rxDescCount) x → m' x = s.mem x := by
      intro x hx
      apply outside
      intro h
      rw [ok.1] at h
      exact hx (.inr h)
    have torn := inv.clear ap at' same
    have mended := torn.mend a (i := i) (by simp [State.move]) holds
    have left := mended.abort (i := i) (by simp [State.move, Pc.Holding])
      (by simp [State.move, Pc.taken]) (by simp [State.move, Pc.torn])
    refine ⟨rd, ?_⟩
    simpa [State.abort, State.unlock, State.move, Function.update_idem] using left
  | advance i data w m' at' outside allowed => cases allowed

theorem fault_reachable_inv (ap : Apart r) {s₀ : State} (start : Start r s₀)
    (run : FaultReachable r false false s₀ s) : ∃ rd, Inv r s₀.rxRdIdx s rd := by
  induction run with
  | start => exact ⟨_, start_inv ap start⟩
  | next _ step ih =>
    obtain ⟨rd, inv⟩ := ih
    exact fault_step_inv ap inv step

theorem FaultStep.data (h : FaultStep r stale lossy s t) (data : [] ∉ s.published) :
    [] ∉ t.published := by
  cases h with
  | step _ data => exact data
  | _ => exact data

theorem FaultReachable.data {s₀ : State} (run : FaultReachable r stale lossy s₀ s)
    (data : [] ∉ s₀.published) : [] ∉ s.published := by
  induction run with
  | start => exact data
  | next _ step ih => exact step.data ih

/-! ## Messages without bytes -/

/-- What a thread has loaded has bytes. -/
def Pc.HasData : Pc → Prop
  | .clearing data _ _ | .advancing data _ | .unlocking data => data ≠ []
  | _ => True

theorem hasData_move (all : ∀ j, (s.pc j).HasData) {i : Nat} {p : Pc} (data : p.HasData) :
    ∀ j, ((s.move i p).pc j).HasData := by
  intro j
  by_cases here : j = i
  · subst here
    simpa only [State.move, Function.update_self] using data
  · simpa only [State.move, Function.update_of_ne here] using all j

theorem step_hasData (h : Step r stale s t) (all : ∀ j, (s.pc j).HasData) :
    ∀ j, (t.pc j).HasData := by
  cases h with
  | look i call at' =>
    unfold State.looked
    split
    · split
      · exact hasData_move all trivial
      · exact hasData_move all trivial
    · exact hasData_move all trivial
  | fetch i call w at' =>
    unfold State.fetched
    split
    · exact hasData_move all trivial
    · split
      · exact hasData_move all trivial
      · exact hasData_move all trivial
  | load i w a len at' some =>
    apply hasData_move all
    intro none
    rw [← length_load s.mem a len, none] at some
    exact Nat.lt_irrefl 0 some
  | clear i data w a at' | advance i data w at' =>
    have data := all i
    rw [at'] at data
    exact hasData_move all data
  | interrupt | fill | publish | elsewhere => exact all
  | _ => exact hasData_move all trivial

end Qapp.RingRx
