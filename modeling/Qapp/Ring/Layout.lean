import Qapp.Ring.Send

namespace Qapp.RingTx
open ByteMem Cyclic

/-- The slave's layout of a ring: buffers, descriptors and the two indices lie
in the 32-bit address space and apart from each other. -/
structure Apart (r : Ring) : Prop where
  count : 2 ≤ r.txDescCount
  count_lt : r.txDescCount < 2 ^ 32
  bufs_lt : r.txBufBase + r.txDescCount * r.txBufSize ≤ 2 ^ 32
  descs_lt : r.txDescBase + r.txDescCount * 8 ≤ 2 ^ 32
  bufs_descs : r.txBufBase + r.txDescCount * r.txBufSize ≤ r.txDescBase ∨
    r.txDescBase + r.txDescCount * 8 ≤ r.txBufBase
  bufs_wr : r.txBufBase + r.txDescCount * r.txBufSize ≤ r.wrIdxAddr ∨
    r.wrIdxAddr + 4 ≤ r.txBufBase
  bufs_rd : r.txBufBase + r.txDescCount * r.txBufSize ≤ r.rdIdxAddr ∨
    r.rdIdxAddr + 4 ≤ r.txBufBase
  descs_wr : r.txDescBase + r.txDescCount * 8 ≤ r.wrIdxAddr ∨ r.wrIdxAddr + 4 ≤ r.txDescBase
  descs_rd : r.txDescBase + r.txDescCount * 8 ≤ r.rdIdxAddr ∨ r.rdIdxAddr + 4 ≤ r.txDescBase
  wr_rd : r.wrIdxAddr + 4 ≤ r.rdIdxAddr ∨ r.rdIdxAddr + 4 ≤ r.wrIdxAddr

variable {r : Ring}

theorem mul_step {i n k : Nat} (h : i < n) : i * k + k ≤ n * k := by
  have := Nat.mul_le_mul_right k (show i + 1 ≤ n by omega)
  rwa [Nat.add_mul, Nat.one_mul] at this

/-- A buffer lies inside the pool. -/
theorem Apart.buf (ap : Apart r) {i : Nat} (h : i < r.txDescCount) :
    r.bufAddr i = r.txBufBase + i * r.txBufSize ∨ r.txBufSize = 0 := by
  have := mul_step (k := r.txBufSize) h
  have hb := ap.bufs_lt
  by_cases hz : r.txBufSize = 0
  · exact .inr hz
  · exact .inl (Nat.mod_eq_of_lt (by omega))

theorem Apart.desc (ap : Apart r) {i : Nat} (h : i < r.txDescCount) :
    r.descAddr i = r.txDescBase + i * 8 := by
  have := ap.descs_lt
  exact Nat.mod_eq_of_lt (by omega)

/-- The slot's addresses are in the pool or the descriptor array. -/
theorem Apart.slot_owned (ap : Apart r) {i x : Nat} (h : i < r.txDescCount)
    (hx : r.InSlot i x) : r.Owns x ∧ ¬(r.wrIdxAddr ≤ x ∧ x < r.wrIdxAddr + 4) ∧
      ¬(r.rdIdxAddr ≤ x ∧ x < r.rdIdxAddr + 4) := by
  have hs := mul_step (k := r.txBufSize) h
  have hd := ap.desc h
  have h1 := ap.bufs_wr; have h2 := ap.bufs_rd; have h3 := ap.descs_wr; have h4 := ap.descs_rd
  rcases hx with ⟨lo, hi⟩ | ⟨lo, hi⟩
  · rcases ap.buf h with hb | hz
    · exact ⟨.inl ⟨by omega, by omega⟩, by omega, by omega⟩
    · omega
  · exact ⟨.inr (.inl ⟨by omega, by omega⟩), by omega, by omega⟩

/-- Different slots share no address. -/
theorem Apart.slots_apart (ap : Apart r) {i j x : Nat} (hi : i < r.txDescCount)
    (hj : j < r.txDescCount) (hne : i ≠ j) (hx : r.InSlot i x) : ¬r.InSlot j x := by
  have hid := ap.desc hi
  have hjd := ap.desc hj
  have hbd := ap.bufs_descs
  have hsi := mul_step (k := r.txBufSize) hi
  have hsj := mul_step (k := r.txBufSize) hj
  have apart : r.txBufSize = 0 ∨ i * r.txBufSize + r.txBufSize ≤ j * r.txBufSize ∨
      j * r.txBufSize + r.txBufSize ≤ i * r.txBufSize := by
    rcases Nat.lt_or_gt_of_ne hne with h | h
    · exact .inr (.inl (mul_step h))
    · exact .inr (.inr (mul_step h))
  rcases ap.buf hi with bi | bz
  · rcases ap.buf hj with bj | bz
    · unfold Ring.InSlot at *; omega
    · unfold Ring.InSlot at *; omega
  · unfold Ring.InSlot at *; omega

/-- A slot holds a message the way `ring_send` leaves it. -/
structure Holds (r : Ring) (m : Mem) (idx : Nat) (msg : Msg) : Prop where
  fits : msg.length ≤ r.txBufSize
  short : msg.length < 2 ^ 16
  desc : load m (r.descAddr idx) 8 = descriptor (r.bufAddr idx) msg.length
  buf : load m (r.bufAddr idx) msg.length = msg

theorem bufAddr_lt (r : Ring) (idx : Nat) : r.bufAddr idx < 2 ^ 32 := Nat.mod_lt _ (by decide)

theorem Apart.buf_fits (ap : Apart r) {w n : Nat} (hw : w < r.txDescCount)
    (fits : n ≤ r.txBufSize) : r.bufAddr w + n ≤ 2 ^ 32 := by
  have := mul_step (k := r.txBufSize) hw
  have := ap.bufs_lt
  have := bufAddr_lt r w
  rcases ap.buf hw with hb | hz <;> omega

theorem Apart.desc_fits (ap : Apart r) {w : Nat} (hw : w < r.txDescCount) :
    r.descAddr w + 8 ≤ 2 ^ 32 := by
  have := ap.descs_lt
  rw [ap.desc hw]
  omega

@[simp] theorem length_descriptor (a n : Nat) : (descriptor a n).length = 8 := by
  simp [descriptor]

/-- The slave reads exactly the message of a filled slot. -/
theorem Holds.slot {m : Mem} {idx : Nat} {msg : Msg} (h : Holds r m idx msg) :
    slot r m idx = msg := by
  have addr : word m (r.descAddr idx) = r.bufAddr idx := by
    rw [word, ← take_load m _ (show 4 ≤ 8 by decide), h.desc, descriptor, List.append_assoc,
      List.take_left' (by simp), leNat_leBytes]
    exact Nat.mod_eq_of_lt (bufAddr_lt r idx)
  have len : leNat (load m (r.descAddr idx + 4) 2) = msg.length := by
    have hd : load m (r.descAddr idx + 4) 2 = ((load m (r.descAddr idx) 8).drop 4).take 2 := by
      rw [drop_load m _ (by decide), take_load m _ (by decide)]
    rw [hd, h.desc, descriptor, List.append_assoc, List.drop_left' (by simp),
      List.take_left' (by simp), leNat_leBytes]
    exact Nat.mod_eq_of_lt (by simpa using h.short)
  rw [RingTx.slot, addr, len, h.buf]

/-- A slot keeps its message while its own addresses keep their bytes. -/
theorem Holds.congr {m m' : Mem} {idx : Nat} {msg : Msg} (h : Holds r m idx msg)
    (same : ∀ x, r.InSlot idx x → m' x = m x) : Holds r m' idx msg := by
  refine ⟨h.fits, h.short, ?_, ?_⟩
  · rw [← h.desc]
    exact load_congr fun i hi => same _ (.inr ⟨by omega, by omega⟩)
  · have hf := h.fits
    conv_rhs => rw [← h.buf]
    exact load_congr fun i hi => same _ (.inl ⟨by omega, by omega⟩)

end Qapp.RingTx
