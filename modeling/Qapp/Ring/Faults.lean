import Qapp.Ring.Delivery

/-!
# `ring_send` over a transport that fails

A read or write that fails ends the call with its error. A failed write may have
changed any of the bytes it was to write.
-/

namespace Qapp.RingTx
open ByteMem Cyclic

variable {r : Ring} {base old : Nat} {s t : State} {c : Counters}

/-- The call of thread `i` returns a transport error and leaves `m'` behind. -/
def State.abort (s : State) (i : Nat) (m' : Mem) : State := { s.unlock i with mem := m' }

/-- `indexFault` allows the write of `tx_wr_idx` to fail. The cached index has been
advanced before that write. -/
inductive FaultStep (r : Ring) (indexFault : Bool) : State → State → Prop
  | step {s t : State} (h : Step r s t) : FaultStep r indexFault s t
  | refresh (s : State) (i : Nat) (data : Msg) (wrIdx : Nat)
      (at' : s.pc i = .refreshing data wrIdx) : FaultStep r indexFault s (s.abort i s.mem)
  | fill (s : State) (i : Nat) (data : Msg) (wrIdx : Nat) (m' : Mem)
      (at' : s.pc i = .filling data wrIdx)
      (outside : ∀ x, ¬(s.pc i).Writes r x → m' x = s.mem x) :
      FaultStep r indexFault s (s.abort i m')
  | describe (s : State) (i : Nat) (data : Msg) (wrIdx : Nat) (m' : Mem)
      (at' : s.pc i = .describing data wrIdx)
      (outside : ∀ x, ¬(s.pc i).Writes r x → m' x = s.mem x) :
      FaultStep r indexFault s (s.abort i m')
  | publish (s : State) (i : Nat) (data : Msg) (wrIdx : Nat) (m' : Mem)
      (at' : s.pc i = .publishing data wrIdx)
      (outside : ∀ x, ¬(s.pc i).Writes r x → m' x = s.mem x) (allowed : indexFault = true) :
      FaultStep r indexFault s
        { s.abort i m' with txWrIdx := (wrIdx + 1) % r.txDescCount }

inductive FaultReachable (r : Ring) (indexFault : Bool) (start : State) : State → Prop
  | start : FaultReachable r indexFault start start
  | next {s t : State} : FaultReachable r indexFault start s → FaultStep r indexFault s t →
      FaultReachable r indexFault start t

/-- The bytes of a slot that its writer may have spoiled do not count: the slot is
not published. -/
theorem Inv.abort (inv : Inv r base old s c) (ap : Apart r) {i : Nat} {data : Msg} {m' : Mem}
    (held : (s.pc i).Holding) (pub : (s.pc i).published = [])
    (fits : data.length ≤ 1500 ∧ data.length ≤ r.txBufSize)
    (room : c.wr + 1 < c.cached + r.txDescCount)
    (same : ∀ x, ¬r.InSlot (c.wr % r.txDescCount) x → m' x = s.mem x) :
    Inv r base old (s.abort i m') c := by
  have spoiled : Inv r base old
      { s.move i (.filling data (c.wr % r.txDescCount)) with mem := m' } c :=
    inv.write ap held pub trivial same ⟨fits, rfl, room⟩
  have left := spoiled.give_back (i := i) (by simp [State.move, Pc.Holding])
  simpa [State.abort, State.unlock, State.move, Pc.published, Function.update_idem] using left

theorem fault_step_inv (ap : Apart r) (inv : Inv r base old s c) (h : FaultStep r false s t) :
    ∃ c', Inv r base old t c' := by
  have hn : 0 < r.txDescCount := by have := ap.count; omega
  cases h with
  | step h => exact step_inv ap inv h
  | refresh i data w at' =>
    have left := inv.give_back (i := i) (by rw [at']; trivial)
    rw [at'] at left
    simp only [Pc.published, List.append_nil] at left
    exact ⟨c, left⟩
  | fill i data w m' at' outside =>
    have ok := inv.threads i
    rw [at'] at ok
    obtain ⟨fits, rfl, room⟩ := ok
    refine ⟨c, inv.abort ap (by rw [at']; trivial) (by rw [at']; rfl) fits room fun x hx => ?_⟩
    apply outside
    rw [at']
    rintro ⟨lo, hi⟩
    exact hx (.inl ⟨lo, by omega⟩)
  | describe i data w m' at' outside =>
    have ok := inv.threads i
    rw [at'] at ok
    obtain ⟨fits, rfl, room, -⟩ := ok
    refine ⟨c, inv.abort ap (by rw [at']; trivial) (by rw [at']; rfl) fits room fun x hx => ?_⟩
    apply outside
    rw [at']
    exact fun writes => hx (.inr writes)
  | publish i data w m' at' outside allowed => cases allowed

theorem fault_reachable_inv (ap : Apart r) {s₀ : State} (start : Start r s₀)
    (run : FaultReachable r false s₀ s) : ∃ c, Inv r s₀.txRdIdx (s₀.outstanding r) s c := by
  induction run with
  | start => exact ⟨_, start_inv ap start⟩
  | next _ step ih =>
    obtain ⟨c, inv⟩ := ih
    exact fault_step_inv ap inv step

/-- A call that has not returned 0, and is not about to, has left nothing for the
slave: what the slave reads, now and later, is what the other calls have sent. -/
structure FailsCleanly (r : Ring) (s₀ s : State) : Prop where
  published : s.txWrIdx = word s.mem r.wrIdxAddr
  delivered : (s.taken ++ s.pending r).drop (s₀.outstanding r) = s.sent

theorem Inv.failsCleanly {s₀ : State} (inv : Inv r s₀.txRdIdx (s₀.outstanding r) s c) :
    FailsCleanly r s₀ s := by
  constructor
  · rw [inv.cachedWr, inv.wr]
  · exact inv.taken_pending

/-- Once the cached index is ahead, the slave finds one message more than was sent. -/
theorem Inv.spoils_index {s₀ : State} (inv : Inv r s₀.txRdIdx (s₀.outstanding r) s c)
    {i w : Nat} {data : Msg} {m' : Mem} (at' : s.pc i = .publishing data w) :
    ¬FailsCleanly r s₀ { s.abort i m' with txWrIdx := (w + 1) % r.txDescCount } := by
  rintro ⟨published, delivered⟩
  have mine := inv.holder i (by rw [at']; trivial)
  have ok := inv.threads i
  rw [at'] at ok
  obtain ⟨rfl, room, -⟩ := ok
  have sent : s.sent = s.returned := by
    simp [State.sent, State.inflight, mine, at', Pc.published]
  have h1 := inv.cached_le; have h2 := inv.read_le; have h3 := inv.pos_le
  have index : word m' r.wrIdxAddr = (c.wr + 1) % r.txDescCount := by
    rw [← succ_mod]
    exact published.symm
  have ahead : State.outstanding r
      { s.abort i m' with txWrIdx := (c.wr % r.txDescCount + 1) % r.txDescCount } =
        c.wr + 1 - c.pos := by
    simp only [State.outstanding, State.abort, State.unlock, State.move]
    rw [index, inv.pos]
    exact behind_mod (by omega) (by omega)
  have length := congrArg List.length delivered
  simp only [List.length_drop, List.length_append, State.pending, List.length_map,
    List.length_range, ahead] at length
  have htaken := inv.taken
  have hsent := inv.sent
  rw [sent] at hsent
  simp only [State.abort, State.unlock, State.move, State.sent, State.inflight,
    List.append_nil] at length
  omega

/-- Whatever else fails, a call that fails leaves nothing behind; a failed write of
`tx_wr_idx` always does. -/
theorem failed_send_is_clean (ap : Apart r) {s₀ : State} (start : Start r s₀)
    (run : FaultReachable r false s₀ s) : FailsCleanly r s₀ s ∧
      ∀ t, FaultStep r true s t → (FailsCleanly r s₀ t ↔ FaultStep r false s t) := by
  obtain ⟨c, inv⟩ := fault_reachable_inv ap start run
  refine ⟨inv.failsCleanly, fun t h => ⟨fun clean => ?_, fun h => ?_⟩⟩
  · cases h with
    | step h => exact .step h
    | refresh i data w at' => exact .refresh s i data w at'
    | fill i data w m' at' outside => exact .fill s i data w m' at' outside
    | describe i data w m' at' outside => exact .describe s i data w m' at' outside
    | publish i data w m' at' outside allowed => exact absurd clean (inv.spoils_index at')
  · obtain ⟨c', inv'⟩ := fault_step_inv ap inv h
    exact inv'.failsCleanly

/-- The descriptor cannot be written, and the same data is sent again. -/
theorem small_ring_retries : ∃ s, FaultReachable smallRing false smallStart s ∧
    s.returned = [[7]] ∧ FailsCleanly smallRing smallStart s := by
  have apart : Apart smallRing := by constructor <;> decide
  have start : Start smallRing smallStart := by constructor <;> first | decide | exact fun _ => rfl
  have idle : FaultReachable smallRing false smallStart smallStart := .start
  have called := idle.next (.step (.call _ 0 [7] rfl (by decide) (by decide) (by decide)))
  have locked := called.next (.step (.lock _ 0 [7] rfl rfl))
  have looked := locked.next (.step (.look _ 0 [7] rfl))
  have filled := looked.next (.step (.fill _ 0 [7] 0 rfl))
  have failed := filled.next (.describe _ 0 [7] 0 _ rfl fun _ _ => rfl)
  have called := failed.next (.step (.call _ 0 [7] rfl (by decide) (by decide) (by decide)))
  have locked := called.next (.step (.lock _ 0 [7] rfl rfl))
  have looked := locked.next (.step (.look _ 0 [7] rfl))
  have filled := looked.next (.step (.fill _ 0 [7] 0 rfl))
  have described := filled.next (.step (.describe _ 0 [7] 0 rfl))
  have published := described.next (.step (.publish _ 0 [7] 0 rfl))
  have unlocked := published.next (.step (.unlock _ 0 [7] rfl))
  exact ⟨_, unlocked, rfl, (failed_send_is_clean apart start unlocked).1⟩

/-- The write of the index fails after `[7]`; the call that sends `[8]` publishes
both. -/
theorem failed_index_write_delivers : ∃ s, FaultReachable threeRing true smallStart s ∧
    Start threeRing smallStart ∧ Apart threeRing ∧ s.returned = [[8]] ∧ s.owner = none ∧
    s.taken = [[7], [8]] ∧ ¬FailsCleanly threeRing smallStart s := by
  have apart : Apart threeRing := by constructor <;> decide
  have start : Start threeRing smallStart := by
    constructor <;> first | decide | exact fun _ => rfl
  have idle : FaultReachable threeRing true smallStart smallStart := .start
  have called := idle.next (.step (.call _ 0 [7] rfl (by decide) (by decide) (by decide)))
  have locked := called.next (.step (.lock _ 0 [7] rfl rfl))
  have looked := locked.next (.step (.look _ 0 [7] rfl))
  have filled := looked.next (.step (.fill _ 0 [7] 0 rfl))
  have described := filled.next (.step (.describe _ 0 [7] 0 rfl))
  have failed := described.next (.publish _ 0 [7] 0 _ rfl (fun _ _ => rfl) rfl)
  have called := failed.next (.step (.call _ 0 [8] rfl (by decide) (by decide) (by decide)))
  have locked := called.next (.step (.lock _ 0 [8] rfl rfl))
  have looked := locked.next (.step (.look _ 0 [8] rfl))
  have filled := looked.next (.step (.fill _ 0 [8] 1 rfl))
  have described := filled.next (.step (.describe _ 0 [8] 1 rfl))
  have published := described.next (.step (.publish _ 0 [8] 1 rfl))
  have unlocked := published.next (.step (.unlock _ 0 [8] rfl))
  have first := unlocked.next (.step (.consume _ (by decide)))
  have second := first.next (.step (.consume _ (by decide)))
  exact ⟨_, second, start, apart, rfl, rfl, by decide, fun h => absurd h.delivered (by decide)⟩

end Qapp.RingTx
