import Qapp.Ring.Ownership

namespace Qapp.RingTx
open ByteMem Cyclic

variable {r : Ring} {base old : Nat} {s t : State} {c : Counters}

/-- The emptiness test passes only when the write slot is free. -/
theorem Inv.enter (inv : Inv r base old s c) {i : Nat} {data : Msg}
    (held : (s.pc i).Holding) (pub : (s.pc i).published = [])
    (fits : data.length ≤ 1500 ∧ data.length ≤ r.txBufSize) :
    Inv r base old (s.enter r i data (c.wr % r.txDescCount) (c.cached % r.txDescCount)) c := by
  have h1 := inv.cached_le; have h2 := inv.read_le; have h3 := inv.pos_le; have h4 := inv.room
  unfold State.enter
  rw [avail_mod (by omega) h4]
  split
  · have := inv.give_back held
    rw [pub, List.append_nil] at this
    exact this
  · refine inv.move pub ⟨fun _ => trivial, fun _ => held⟩ ⟨fits, rfl, ?_⟩
    omega

theorem Inv.recache (inv : Inv r base old s c) :
    Inv r base old { s with txRdIdx := word s.mem r.rdIdxAddr } { c with cached := c.read } :=
  have h1 := inv.cached_le
  have h4 := inv.room
  { inv with
    cached := inv.read
    cached_le := Nat.le_refl _
    room := by simp only; omega
    threads := by
      intro i
      have ok := inv.threads i
      cases h : s.pc i with
      | filling data w =>
        rw [h] at ok
        obtain ⟨fits, hw, room⟩ := ok
        exact ⟨fits, hw, by simp only; omega⟩
      | describing data w =>
        rw [h] at ok
        obtain ⟨fits, hw, room, buf⟩ := ok
        exact ⟨fits, hw, by simp only; omega, buf⟩
      | publishing data w =>
        rw [h] at ok
        obtain ⟨hw, room, held⟩ := ok
        exact ⟨hw, by simp only; omega, held⟩
      | _ => rw [h] at ok; exact ok }

theorem Inv.fill (inv : Inv r base old s c) (ap : Apart r) {i w : Nat} {data : Msg}
    (at' : s.pc i = .filling data w) :
    Inv r base old { s.move i (.describing data w) with
      mem := store s.mem (r.bufAddr w) data } c := by
  have ok := inv.threads i
  rw [at'] at ok
  obtain ⟨fits, rfl, room⟩ := ok
  refine inv.write ap (by rw [at']; trivial) (by rw [at']; rfl) trivial ?_
    ⟨fits, rfl, room, load_store_same _ _ _⟩
  intro x hx
  refine store_apply_of_not_mem _ ?_
  unfold Ring.InSlot at hx
  omega

theorem Inv.describe (inv : Inv r base old s c) (ap : Apart r) {i w : Nat} {data : Msg}
    (at' : s.pc i = .describing data w) :
    Inv r base old { s.move i (.publishing data w) with
      mem := store s.mem (r.descAddr w) (descriptor (r.bufAddr w) data.length) } c := by
  have ok := inv.threads i
  rw [at'] at ok
  obtain ⟨fits, rfl, room, buf⟩ := ok
  have hw : c.wr % r.txDescCount < r.txDescCount := Nat.mod_lt _ (by have := ap.count; omega)
  have hs := mul_step (k := r.txBufSize) hw
  have hd := ap.desc hw
  have hbd := ap.bufs_descs
  -- the descriptor array and the buffer pool share no address
  have kept : load (store s.mem (r.descAddr (c.wr % r.txDescCount))
      (descriptor (r.bufAddr (c.wr % r.txDescCount)) data.length))
      (r.bufAddr (c.wr % r.txDescCount)) data.length = data := by
    rcases ap.buf hw with hb | hz
    · rw [load_store_disjoint _ (by rw [length_descriptor]; omega), buf]
    · obtain rfl := List.eq_nil_of_length_eq_zero (show data.length = 0 by omega)
      rfl
  refine inv.write ap (by rw [at']; trivial) (by rw [at']; rfl) trivial ?_
    ⟨rfl, room, fits.2, by omega, ?_, kept⟩
  · intro x hx
    refine store_apply_of_not_mem _ ?_
    unfold Ring.InSlot at hx
    rw [length_descriptor]
    omega
  · have := load_store_same s.mem (r.descAddr (c.wr % r.txDescCount))
      (descriptor (r.bufAddr (c.wr % r.txDescCount)) data.length)
    rwa [length_descriptor] at this

/-- The slots keep their bytes when only an index word is written. -/
theorem slot_kept (ap : Apart r) {m : Mem} {a v idx x : Nat} (h : idx < r.txDescCount)
    (ha : a = r.wrIdxAddr ∨ a = r.rdIdxAddr) (hx : r.InSlot idx x) :
    store m a (leBytes 4 v) x = m x := by
  obtain ⟨-, h1, h2⟩ := ap.slot_owned h hx
  refine store_apply_of_not_mem _ ?_
  rw [length_leBytes]
  rcases ha with rfl | rfl <;> omega

theorem Inv.publish (inv : Inv r base old s c) (ap : Apart r) {i w : Nat} {data : Msg}
    (at' : s.pc i = .publishing data w) :
    Inv r base old { s.move i (.unlocking data) with
      txWrIdx := (w + 1) % r.txDescCount
      mem := store s.mem r.wrIdxAddr (leBytes 4 ((w + 1) % r.txDescCount)) }
      { c with wr := c.wr + 1 } := by
  have held : (s.pc i).Holding := by rw [at']; trivial
  have mine := inv.holder i held
  have ok := inv.threads i
  rw [at'] at ok
  obtain ⟨rfl, room, filled⟩ := ok
  have hn : 0 < r.txDescCount := by have := ap.count; omega
  have hlt := ap.count_lt
  have small : (c.wr + 1) % r.txDescCount < 2 ^ 32 := Nat.lt_trans (Nat.mod_lt _ hn) hlt
  have sent : State.sent { s.move i (.unlocking data) with
      txWrIdx := (c.wr % r.txDescCount + 1) % r.txDescCount
      mem := store s.mem r.wrIdxAddr
        (leBytes 4 ((c.wr % r.txDescCount + 1) % r.txDescCount)) } = s.sent ++ [data] := by
    simp [State.sent, State.inflight, State.move, mine, at', Pc.published]
  have hsent := inv.sent
  have hpos := inv.pos_le
  have htaken := inv.taken
  exact { inv with
    cachedWr := succ_mod _ _
    read := by
      rw [← inv.read]
      refine word_congr fun x lo hi => store_apply_of_not_mem _ ?_
      have := ap.wr_rd
      rw [length_leBytes]
      omega
    wr := by
      rw [succ_mod]
      exact word_store_same _ _ _ small
    pos_le := Nat.le_succ_of_le hpos
    room := room
    sent := by
      rw [sent, List.length_append, List.length_singleton]
      show c.wr + 1 = _
      omega
    order := by
      intro j hj
      have read : j + old < s.taken.length := hj
      rw [sent, List.getElem?_append_left (by omega)]
      exact inv.order j hj
    slots := by
      rw [sent]
      intro j msg hj hp
      refine Holds.congr ?_ fun x => slot_kept ap (Nat.mod_lt _ hn) (.inl rfl)
      by_cases h : j < s.sent.length
      · rw [List.getElem?_append_left h] at hj
        exact inv.slots j msg hj hp
      · obtain ⟨hl, hm⟩ := List.getElem?_eq_some_iff.mp hj
        rw [List.length_append, List.length_singleton] at hl
        obtain rfl : j = s.sent.length := by omega
        rw [List.getElem_append_right (by omega)] at hm
        simp only [Nat.sub_self, List.getElem_cons_zero] at hm
        rw [← hm, ← hsent]
        exact filled
    holder := by
      intro j hj
      by_cases e : j = i
      · subst e; exact mine
      · simp only [State.move, Function.update_of_ne e] at hj
        exact inv.holder j hj
    owner := by
      intro j hj
      by_cases e : j = i
      · subst e; simp only [State.move, Function.update_self, Pc.Holding]
      · simpa only [State.move, Function.update_of_ne e] using inv.owner j hj
    threads := by
      intro j
      by_cases e : j = i
      · subst e; simp only [State.move, Function.update_self, PcOk]
      · simpa only [State.move, Function.update_of_ne e] using
          (inv.threads j).free (inv.others_free held j e) }

theorem Inv.consume (inv : Inv r base old s c)
    (published : word s.mem r.wrIdxAddr ≠ s.pos) :
    Inv r base old { s with
      taken := s.taken ++ [slot r s.mem s.pos]
      pos := (s.pos + 1) % r.txDescCount } { c with pos := c.pos + 1 } := by
  have htaken := inv.taken
  have hsent := inv.sent
  have h1 := inv.cached_le; have h2 := inv.read_le; have h3 := inv.pos_le; have h4 := inv.room
  have ahead : c.pos < c.wr := by
    rw [inv.wr, inv.pos] at published
    have := mt (mod_eq_iff h3 (by omega)).mpr (Ne.symm published)
    omega
  exact { inv with
    pos := by rw [inv.pos]; exact succ_mod _ _
    read_le := Nat.le_succ_of_le h2
    pos_le := ahead
    taken := by simp only [List.length_append, List.length_singleton]; omega
    order := by
      intro j hj
      simp only [List.length_append, List.length_singleton] at hj
      by_cases h : j + old < s.taken.length
      · rw [List.getElem?_append_left h]
        exact inv.order j h
      · have hj' : j + old = s.taken.length := by omega
        have hlt : j < s.sent.length := by omega
        -- the slot read is the one filled for the message after those already read
        have held := inv.slots j _ (List.getElem?_eq_getElem hlt) (by omega)
        rw [show base + old + j = c.pos by omega, ← inv.pos] at held
        rw [hj', List.getElem?_concat_length, held.slot]
        exact (List.getElem?_eq_getElem hlt).symm
    slots := fun j msg hj hp => inv.slots j msg hj (Nat.le_of_succ_le hp)
    threads := by
      intro i
      have ok := inv.threads i
      cases h : s.pc i with
      | _ => rw [h] at ok; exact ok }

theorem Inv.release (inv : Inv r base old s c) (ap : Apart r) {k : Nat}
    (hk : k ≤ behind r.txDescCount s.pos (word s.mem r.rdIdxAddr)) :
    Inv r base old { s with
      mem := store s.mem r.rdIdxAddr (leBytes 4 ((word s.mem r.rdIdxAddr + k) % r.txDescCount)) }
      { c with read := c.read + k } := by
  have hn : 0 < r.txDescCount := by have := ap.count; omega
  have h1 := inv.cached_le; have h2 := inv.read_le; have h3 := inv.pos_le; have h4 := inv.room
  have hlt := ap.count_lt
  rw [inv.pos, inv.read, behind_mod h2 (by omega)] at hk
  have kept : ∀ {idx x : Nat}, idx < r.txDescCount → r.InSlot idx x →
      store s.mem r.rdIdxAddr (leBytes 4 ((word s.mem r.rdIdxAddr + k) % r.txDescCount)) x =
        s.mem x := fun h => slot_kept ap h (.inr rfl)
  exact { inv with
    read := by
      rw [word_store_same _ _ _ (Nat.lt_trans (Nat.mod_lt _ hn) hlt), inv.read, Nat.mod_add_mod]
    wr := by
      rw [← inv.wr]
      refine word_congr fun x lo hi => store_apply_of_not_mem _ ?_
      have := ap.wr_rd
      rw [length_leBytes]
      omega
    cached_le := Nat.le_trans h1 (Nat.le_add_right _ _)
    read_le := by simp only; omega
    slots := fun j msg hj hp => (inv.slots j msg hj hp).congr fun x => kept (Nat.mod_lt _ hn)
    threads := by
      intro i
      have ok := (inv.threads i).congr fun x => kept (Nat.mod_lt _ hn)
      cases h : s.pc i with
      | _ => rw [h] at ok; exact ok }

theorem Inv.elsewhere (inv : Inv r base old s c) (ap : Apart r) {m' : Mem}
    (outside : ∀ x, r.Owns x → m' x = s.mem x) : Inv r base old { s with mem := m' } c := by
  have hn : 0 < r.txDescCount := by have := ap.count; omega
  have kept : ∀ {idx x : Nat}, idx < r.txDescCount → r.InSlot idx x → m' x = s.mem x :=
    fun h hx => outside _ (ap.slot_owned h hx).1
  exact { inv with
    read := by
      rw [← inv.read]
      exact word_congr fun x lo hi => outside x (.inr (.inr (.inr ⟨lo, hi⟩)))
    wr := by
      rw [← inv.wr]
      exact word_congr fun x lo hi => outside x (.inr (.inr (.inl ⟨lo, hi⟩)))
    slots := fun j msg hj hp => (inv.slots j msg hj hp).congr fun x => kept (Nat.mod_lt _ hn)
    threads := fun i => (inv.threads i).congr fun x => kept (Nat.mod_lt _ hn) }

/-- Every transport call, lock operation and slave step keeps the counters. -/
theorem step_inv (ap : Apart r) (inv : Inv r base old s c) (h : Step r s t) :
    ∃ c', Inv r base old t c' := by
  cases h with
  | call i data idle nonempty short fits =>
    exact ⟨c, inv.move (by rw [idle]; rfl) (by rw [idle]; exact Iff.rfl) ⟨short, fits⟩⟩
  | timeout i data at' =>
    exact ⟨c, inv.move (by rw [at']; rfl) (by rw [at']; exact Iff.rfl) trivial⟩
  | lock i data at' free => exact ⟨c, inv.take_lock at' free⟩
  | look i data at' =>
    have ok := inv.threads i
    rw [at'] at ok
    refine ⟨c, ?_⟩
    split
    · exact inv.move (by rw [at']; rfl) (by rw [at']; exact Iff.rfl) ⟨ok, inv.cachedWr⟩
    · rw [inv.cachedWr, inv.cached]
      exact inv.enter (by rw [at']; trivial) (by rw [at']; rfl) ok
  | refresh i data w at' =>
    have ok := inv.threads i
    rw [at'] at ok
    obtain ⟨fits, rfl⟩ := ok
    refine ⟨{ c with cached := c.read }, ?_⟩
    have := inv.recache.enter (i := i) (by simp only [at']; trivial) (by simp only [at']; rfl) fits
    rwa [← inv.read] at this
  | fill i data w at' => exact ⟨c, inv.fill ap at'⟩
  | describe i data w at' => exact ⟨c, inv.describe ap at'⟩
  | publish i data w at' => exact ⟨_, inv.publish ap at'⟩
  | unlock i data at' =>
    have := inv.give_back (i := i) (by rw [at']; trivial)
    rw [at'] at this
    exact ⟨c, this⟩
  | consume published => exact ⟨_, inv.consume published⟩
  | release k read => exact ⟨_, inv.release ap read⟩
  | elsewhere m' outside => exact ⟨c, inv.elsewhere ap outside⟩

theorem start_inv (ap : Apart r) (start : Start r s) :
    Inv r s.txRdIdx (s.outstanding r) s
      ⟨s.txRdIdx, s.txRdIdx, s.txRdIdx, s.txRdIdx + s.outstanding r⟩ := by
  have hn : 0 < r.txDescCount := by have := ap.count; omega
  have hrd := start.rd_lt
  have hwr := start.wr_lt
  have sent : s.sent = [] := by
    simp [State.sent, State.inflight, start.free, start.returned]
  have old_lt : s.outstanding r < r.txDescCount := Nat.mod_lt _ hn
  have back : (s.txRdIdx + s.outstanding r) % r.txDescCount = s.txWrIdx := by
    rw [State.outstanding, behind, start.pos, ← start.wr, Nat.add_mod_mod,
      show s.txRdIdx + (s.txWrIdx + r.txDescCount - s.txRdIdx) = s.txWrIdx + r.txDescCount by omega,
      Nat.add_mod_right, Nat.mod_eq_of_lt hwr]
  exact {
    cached := (Nat.mod_eq_of_lt hrd).symm
    read := by rw [← start.rd]; exact (Nat.mod_eq_of_lt hrd).symm
    pos := by rw [start.pos]; exact (Nat.mod_eq_of_lt hrd).symm
    cachedWr := back.symm
    wr := by rw [← start.wr]; exact back.symm
    cached_le := Nat.le_refl _
    read_le := Nat.le_refl _
    pos_le := Nat.le_add_right _ _
    room := by simp only; omega
    taken := by simp [start.taken]
    sent := by simp [sent]
    order := by simp [start.taken]
    slots := by simp [sent]
    holder := by
      intro i hi
      rw [start.idle i] at hi
      exact hi.elim
    owner := by simp [start.free]
    threads := by
      intro i
      rw [start.idle i]
      trivial }

theorem reachable_inv (ap : Apart r) {s₀ : State} (start : Start r s₀)
    (run : Reachable r s₀ s) : ∃ c, Inv r s₀.txRdIdx (s₀.outstanding r) s c := by
  induction run with
  | start => exact ⟨_, start_inv ap start⟩
  | next _ step ih =>
    obtain ⟨c, inv⟩ := ih
    exact step_inv ap inv step

theorem Inv.outstanding_eq (inv : Inv r base old s c) : s.outstanding r = c.wr - c.pos := by
  have h1 := inv.cached_le; have h2 := inv.read_le; have h4 := inv.room
  rw [State.outstanding, inv.wr, inv.pos]
  exact behind_mod inv.pos_le (by omega)

theorem Inv.published_slot (inv : Inv r base old s c) (j : Nat) :
    (s.pos + j) % r.txDescCount = (c.pos + j) % r.txDescCount := by
  rw [inv.pos, Nat.mod_add_mod]

/-- No thread is about to write into a slot the slave has still to read. -/
theorem Inv.writes_free (inv : Inv r base old s c) (ap : Apart r) {i j x : Nat}
    (hx : (s.pc i).Writes r x) (hj : j < s.outstanding r) :
    ¬r.InSlot ((s.pos + j) % r.txDescCount) x := by
  have hn : 0 < r.txDescCount := by have := ap.count; omega
  rw [inv.outstanding_eq] at hj
  rw [inv.published_slot]
  have apart := inv.slot_ne (k := c.pos + j) (by omega) (by omega)
  have ok := inv.threads i
  cases h : s.pc i with
  | filling data w =>
    rw [h] at ok hx
    obtain ⟨fits, rfl, -⟩ := ok
    obtain ⟨lo, hi⟩ := hx
    exact ap.slots_apart (Nat.mod_lt _ hn) (Nat.mod_lt _ hn) apart (.inl ⟨lo, by omega⟩)
  | describing data w =>
    rw [h] at ok hx
    obtain ⟨-, rfl, -⟩ := ok
    exact ap.slots_apart (Nat.mod_lt _ hn) (Nat.mod_lt _ hn) apart (.inr hx)
  | publishing data w =>
    rw [h] at hx
    intro hs
    exact (ap.slot_owned (Nat.mod_lt _ hn) hs).2.1 hx
  | _ => rw [h] at hx; exact hx.elim

/-- A step changes the memory only where the moving thread writes, at the slave's
own index, or outside the ring. -/
theorem step_mem (h : Step r s t) (x : Nat) (own : r.Owns x) (changed : t.mem x ≠ s.mem x) :
    (∃ i, (s.pc i).Writes r x) ∨ (r.rdIdxAddr ≤ x ∧ x < r.rdIdxAddr + 4) := by
  have written : ∀ {a : Nat} {bs : List UInt8}, store s.mem a bs x ≠ s.mem x →
      a ≤ x ∧ x < a + bs.length := by
    intro a bs hne
    by_contra hout
    exact hne (store_apply_of_not_mem _ (by omega))
  cases h with
  | look i data at' =>
    refine absurd ?_ changed
    split
    · rfl
    · unfold State.enter; split <;> rfl
  | refresh i data w at' =>
    refine absurd ?_ changed
    unfold State.enter; split <;> rfl
  | fill i data w at' => exact .inl ⟨i, by rw [at']; exact written changed⟩
  | describe i data w at' =>
    have := written changed
    rw [length_descriptor] at this
    exact .inl ⟨i, by rw [at']; exact this⟩
  | publish i data w at' =>
    have := written changed
    rw [length_leBytes] at this
    exact .inl ⟨i, by rw [at']; exact this⟩
  | release k read =>
    have := written changed
    rw [length_leBytes] at this
    exact .inr this
  | elsewhere m' outside => exact absurd (outside x own) changed
  | _ => exact absurd rfl changed

theorem Inv.slot_unchanged (inv : Inv r base old s c) (ap : Apart r) (h : Step r s t)
    {j x : Nat} (hj : j < s.outstanding r) (hx : r.InSlot ((s.pos + j) % r.txDescCount) x) :
    t.mem x = s.mem x := by
  have hn : 0 < r.txDescCount := by have := ap.count; omega
  obtain ⟨own, -, hrd⟩ := ap.slot_owned (Nat.mod_lt _ hn) hx
  by_contra changed
  rcases step_mem h x own changed with ⟨i, hw⟩ | index
  · exact inv.writes_free ap hw hj hx
  · exact hrd index

/-- What the slave has read, then what it will find, is what was sent. -/
theorem Inv.taken_pending (inv : Inv r base old s c) :
    (s.taken ++ s.pending r).drop old = s.sent := by
  have htaken := inv.taken
  have hsent := inv.sent
  have hpos := inv.pos_le
  have hout := inv.outstanding_eq
  have len : (s.pending r).length = c.wr - c.pos := by simp [State.pending, hout]
  apply List.ext_getElem?
  intro j
  rw [List.getElem?_drop, Nat.add_comm old j]
  by_cases read : j + old < s.taken.length
  · rw [List.getElem?_append_left read, inv.order j read]
  · rw [List.getElem?_append_right (by omega)]
    by_cases h : j < s.sent.length
    · have held := inv.slots j _ (List.getElem?_eq_getElem h) (by omega)
      have hk : j + old - s.taken.length < s.outstanding r := by omega
      rw [State.pending, List.getElem?_map, List.getElem?_range hk, Option.map_some,
        inv.published_slot, show c.pos + (j + old - s.taken.length) = base + old + j by omega,
        held.slot, List.getElem?_eq_getElem h]
    · rw [List.getElem?_eq_none (by omega), List.getElem?_eq_none (by omega)]

/-- A ring of two slots with an empty memory. -/
def smallRing : Ring where
  ctrlBlockAddr := 0
  ringId := 0
  txDescBase := 200
  txDescCount := 2
  txBufSize := 4
  txBufBase := 300

/-- The same ring with three slots. -/
def threeRing : Ring := { smallRing with txDescCount := 3 }

def smallStart : State where
  mem := fun _ => 0
  txWrIdx := 0
  txRdIdx := 0
  owner := none
  pc := fun _ => .idle
  pos := 0
  taken := []
  returned := []

end Qapp.RingTx
