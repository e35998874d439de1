import Qapp.Spi.Limits

/-!
# The QCSPI transport

`qcspi_transport_read` and `qcspi_transport_write` take a `size_t` length and hand it to the
driver as a `uint16_t`.
-/

namespace Qapp.Spi
open ByteMem
open Bus (maxTransferSize)

/-- Negative return values of the transport. -/
inductive TransportErr
  | inval | nodev
  | driver (err : Errno)
  deriving DecidableEq, Repr

/-- `initialized` is the flag of `g_transport_inst`, `none` a NULL `data`. -/
def qcspiTransportRead (initialized : Bool) (addr : Nat) (data : Option Mem) (len : Nat) :
    Words (Except TransportErr Unit × Mem) := do
  match data with
  | none => pure (.error .inval, fun _ => 0)
  | some buf =>
    if len = 0 then pure (.error .inval, buf)
    else if !initialized then pure (.error .nodev, buf)
    else
      let (ret, buf) ← qcspiReadAddrAlign (len % 2 ^ 16) addr (some buf)
      match ret with
      | .error err => pure (.error (.driver err), buf)
      | .ok _ => pure (.ok (), buf)

def qcspiTransportWrite (initialized : Bool) (addr : Nat) (data : Option Mem) (len : Nat) :
    Words (Except TransportErr Unit) := do
  match data with
  | none => pure (.error .inval)
  | some data =>
    if len = 0 then pure (.error .inval)
    else if !initialized then pure (.error .nodev)
    else
      match ← qcspiWriteAddrAlign (len % 2 ^ 16) addr (some data) with
      | .error err => pure (.error (.driver err))
      | .ok _ => pure (.ok ())

/-! ## What a call that returns 0 has moved -/

section Moved
variable {len addr : Nat} {initialized : Bool} {m m' : Mem}

theorem qcspiTransportRead_ok {buf : Mem} {r : Except TransportErr Unit × Mem}
    {R : Mem → (op : WordOp) → op.Ans → Mem → Prop}
    (run : (qcspiTransportRead initialized addr (some buf) len).Runs R m r m') (ok : r.1 = .ok ()) :
    len ≠ 0 ∧
      (qcspiReadAddrAlign (len % 2 ^ 16) addr (some buf)).Runs R m (.ok (), r.2) m' := by
  unfold qcspiTransportRead at run
  dsimp only at run
  split at run
  next =>
    obtain ⟨rfl, _⟩ := run.ret_inv
    cases ok
  next nonempty =>
    apply And.intro nonempty
    split at run
    next =>
      obtain ⟨rfl, _⟩ := run.ret_inv
      cases ok
    next =>
      obtain ⟨⟨ret, buf'⟩, t, first, last⟩ := run.split
      cases ret with
      | error err =>
        obtain ⟨rfl, _⟩ := last.ret_inv
        cases ok
      | ok u =>
        obtain ⟨rfl, rfl⟩ := last.ret_inv
        exact first

theorem qcspiTransportWrite_ok {data : Mem} {R : Mem → (op : WordOp) → op.Ans → Mem → Prop}
    (run : (qcspiTransportWrite initialized addr (some data) len).Runs R m (.ok ()) m') :
    len ≠ 0 ∧ (qcspiWriteAddrAlign (len % 2 ^ 16) addr (some data)).Runs R m (.ok ()) m' := by
  unfold qcspiTransportWrite at run
  dsimp only at run
  split at run
  next =>
    obtain ⟨⟨⟩, _⟩ := run.ret_inv
  next nonempty =>
    apply And.intro nonempty
    split at run
    next =>
      obtain ⟨⟨⟩, _⟩ := run.ret_inv
    next =>
      obtain ⟨ret, t, first, last⟩ := run.split
      cases ret with
      | error err =>
        obtain ⟨⟨⟩, _⟩ := last.ret_inv
      | ok u =>
        obtain ⟨_, rfl⟩ := last.ret_inv
        exact first

end Moved

/-! ## The transport -/

section Transport
variable {len addr : Nat} {m m' : Mem}

/-- Every byte of the range, whatever the buffer and the memory held before. -/
def Fetches (addr len : Nat) : Prop :=
  ∀ (buf m m' : Mem) (r : Except TransportErr Unit × Mem),
    (qcspiTransportRead true addr (some buf) len).Runs Served m r m' → r.1 = .ok () →
      load r.2 0 len = load m addr len

def Delivers (addr len : Nat) : Prop :=
  ∀ data m m' : Mem, (qcspiTransportWrite true addr (some data) len).Runs Served m (.ok ()) m' →
    load m' addr len = load data 0 len

theorem not_refused (nonempty : len ≠ 0) (short : len ≤ maxTransferSize) : ¬Refused addr len := by
  have pieces : alignDown (len - headSize addr len) ≤ len - headSize addr len :=
    Nat.div_mul_le_self _ _
  rw [not_refused_iff]
  split <;> omega

/-- A read of no bytes is an error. -/
theorem transport_read_empty {R : Mem → (op : WordOp) → op.Ans → Mem → Prop} {buf : Mem}
    {r : Except TransportErr Unit × Mem}
    (run : (qcspiTransportRead true addr (some buf) 0).Runs R m r m') :
    r = (.error .inval, buf) ∧ m' = m := by
  obtain ⟨rfl, rfl⟩ := run.ret_inv
  exact ⟨rfl, rfl⟩

theorem transport_read_fine (fits : addr + len ≤ 2 ^ 32) (nonempty : len ≠ 0)
    (short : len ≤ maxTransferSize) {buf : Mem} {r : Except TransportErr Unit × Mem}
    (run : (qcspiTransportRead true addr (some buf) len).Runs (Unfailing false) m r m') :
    r = (.ok (), store buf 0 (load m addr len)) ∧ m' = m := by
  have small : len < 2 ^ 16 := Nat.lt_of_le_of_lt short (by decide)
  unfold qcspiTransportRead at run
  rw [Nat.mod_eq_of_lt small] at run
  simp only [if_neg nonempty, Bool.not_true, Bool.false_eq_true, if_false] at run
  obtain ⟨⟨ret, buf'⟩, t, first, last⟩ := run.split
  obtain rfl : ret = .ok () := read_fine small (not_refused nonempty short) first
  obtain ⟨rfl, rfl⟩ := last.ret_inv
  obtain ⟨filled, same⟩ :=
    qcspiReadAddrAlign_ok (first.mono fun _ _ _ _ h => h.served.remote) rfl small fits
  exact ⟨congrArg (Prod.mk _) filled, same⟩

/-- A write is refused only for the length the driver sees. -/
theorem transport_write_returns (nonempty : len ≠ 0) (taken : ¬Refused addr (len % 2 ^ 16))
    {data : Mem} {r : Except TransportErr Unit}
    (run : (qcspiTransportWrite true addr (some data) len).Runs (Unfailing false) m r m') :
    r = .ok () := by
  unfold qcspiTransportWrite at run
  simp only [if_neg nonempty, Bool.not_true, Bool.false_eq_true, if_false] at run
  obtain ⟨ret, t, first, last⟩ := run.split
  obtain rfl : ret = .ok () := write_fine (Nat.mod_lt _ (by decide)) taken first
  exact last.ret_inv.1.symm

theorem transport_write_fine (fits : addr + len ≤ 2 ^ 32) (nonempty : len ≠ 0)
    (short : len ≤ maxTransferSize) {data : Mem} {r : Except TransportErr Unit}
    (run : (qcspiTransportWrite true addr (some data) len).Runs (Unfailing false) m r m') :
    r = .ok () ∧ m' = store m addr (load data 0 len) := by
  have small : len < 2 ^ 16 := Nat.lt_of_le_of_lt short (by decide)
  have whole : len % 2 ^ 16 = len := Nat.mod_eq_of_lt small
  obtain rfl := transport_write_returns nonempty (by rw [whole]; exact not_refused nonempty short) run
  obtain ⟨_, driver⟩ := qcspiTransportWrite_ok run
  rw [whole] at driver
  exact ⟨rfl, qcspiWriteAddrAlign_ok (driver.mono fun _ _ _ _ h => h.served.remote) small fits⟩

/-- A read that returns 0 has moved every byte exactly if the length fits in 16 bits, or the
driver never returns 0 for what is left of it. -/
theorem fetches_iff (fits : addr + len % 2 ^ 16 ≤ 2 ^ 32) :
    Fetches addr len ↔ len < 2 ^ 16 ∨ Refused addr (len % 2 ^ 16) := by
  have small : len % 2 ^ 16 < 2 ^ 16 := Nat.mod_lt _ (by decide)
  constructor
  · intro all
    by_contra wrong
    obtain ⟨big, taken⟩ := not_or.mp wrong
    have run := Script.runs_exec (serveWord_unfailing false)
      (qcspiReadAddrAlign (len % 2 ^ 16) addr (some fun _ => 0)) fun _ => 1
    generalize Script.exec serveWord _ _ = final at run
    obtain ⟨⟨ret, buf'⟩, m'⟩ := final
    obtain rfl : ret = .ok () := read_fine small taken run
    have whole : (qcspiTransportRead true addr (some fun _ => 0) len).Runs Served (fun _ => 1)
        (.ok (), buf') m' := by
      unfold qcspiTransportRead
      simp only [if_neg (show len ≠ 0 by omega), Bool.not_true, Bool.false_eq_true, if_false]
      exact (run.mono fun _ _ _ _ h => h.served).bind (.ret _ _)
    have filled : buf' = store (fun _ => 0) 0 (load (fun _ => 1) addr (len % 2 ^ 16)) :=
      (qcspiReadAddrAlign_ok (run.mono fun _ _ _ _ h => h.served.remote) rfl small fits).1
    have inside : len % 2 ^ 16 < len := by omega
    have last := congrArg (List.getD · (len % 2 ^ 16) 0) (all _ _ _ _ whole rfl)
    rw [getD_load _ _ inside, getD_load _ _ inside] at last
    have missed : buf' (0 + len % 2 ^ 16) = 0 := by
      rw [filled, store_apply_of_not_mem _ (by rw [length_load]; omega)]
    exact absurd (missed.symm.trans last) (by decide)
  · intro moved buf m m' r run ok
    obtain ⟨_, driver⟩ := qcspiTransportRead_ok run ok
    obtain small' | long := moved
    · rw [Nat.mod_eq_of_lt small'] at driver fits
      have filled := (qcspiReadAddrAlign_ok (driver.mono fun _ _ _ _ h => h.remote) rfl small'
        fits).1
      have same := load_store_same buf 0 (load m addr len)
      rw [length_load] at same
      rw [filled, same]
    · exact absurd long (read_served small driver rfl)

theorem delivers_iff (fits : addr + len % 2 ^ 16 ≤ 2 ^ 32) :
    Delivers addr len ↔ len < 2 ^ 16 ∨ Refused addr (len % 2 ^ 16) := by
  have small : len % 2 ^ 16 < 2 ^ 16 := Nat.mod_lt _ (by decide)
  constructor
  · intro all
    by_contra wrong
    obtain ⟨big, taken⟩ := not_or.mp wrong
    have run := Script.runs_exec (serveWord_unfailing false)
      (qcspiWriteAddrAlign (len % 2 ^ 16) addr (some fun _ => 1)) fun _ => 0
    generalize Script.exec serveWord _ _ = final at run
    obtain ⟨ret, m'⟩ := final
    obtain rfl : ret = .ok () := write_fine small taken run
    have whole : (qcspiTransportWrite true addr (some fun _ => 1) len).Runs Served (fun _ => 0)
        (.ok ()) m' := by
      unfold qcspiTransportWrite
      simp only [if_neg (show len ≠ 0 by omega), Bool.not_true, Bool.false_eq_true, if_false]
      exact (run.mono fun _ _ _ _ h => h.served).bind (.ret _ _)
    have written : m' = store (fun _ => 0) addr (load (fun _ => 1) 0 (len % 2 ^ 16)) :=
      qcspiWriteAddrAlign_ok (run.mono fun _ _ _ _ h => h.served.remote) small fits
    have inside : len % 2 ^ 16 < len := by omega
    have last := congrArg (List.getD · (len % 2 ^ 16) 0) (all _ _ _ whole)
    rw [getD_load _ _ inside, getD_load _ _ inside, written,
      store_apply_of_not_mem _ (by rw [length_load]; omega)] at last
    exact absurd last (by decide)
  · intro moved data m m' run
    obtain ⟨_, driver⟩ := qcspiTransportWrite_ok run
    obtain small' | long := moved
    · rw [Nat.mod_eq_of_lt small'] at driver fits
      rw [qcspiWriteAddrAlign_ok (driver.mono fun _ _ _ _ h => h.remote) small' fits]
      have same := load_store_same m addr (load data 0 len)
      rwa [length_load] at same
    · exact absurd long (write_served Served.write_fits small driver)

end Transport

end Qapp.Spi
