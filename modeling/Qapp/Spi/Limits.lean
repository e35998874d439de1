import Qapp.Spi.Align
import Qapp.Spi.Bus

/-!
# Sizes the driver refuses

`qcspi_read` and `qcspi_write` refuse more than `QCSPI_MAX_TRANSFER_SIZE` bytes before their
first transfer, and `qc_platform_spi_transceive` refuses a data phase of no bytes. An
unaligned access makes several such calls.
-/

namespace Qapp.Spi
open ByteMem
open Bus (maxTransferSize)

/-- The sizes for which a call can return 0. -/
def WordOp.Fits : WordOp → Prop
  | .read size _ _ => 0 < size ∧ size ≤ maxTransferSize
  | .write _ bytes => 0 < bytes.length ∧ bytes.length ≤ maxTransferSize
  | .nop => True

/-- The calls with their size checks. Behind a call of no bytes is a header that may fail
in its own way. -/
inductive Served : Mem → (op : WordOp) → op.Ans → Mem → Prop
  | readTooLong (m old : Mem) (size addr : Nat) (long : maxTransferSize < size) :
      Served m (.read size addr old) (.error .inval, old) m
  | writeTooLong (m : Mem) (addr : Nat) (bytes : List UInt8)
      (long : maxTransferSize < bytes.length) : Served m (.write addr bytes) (.error .inval) m
  | readEmpty (m old : Mem) (addr : Nat) (err : Errno) :
      Served m (.read 0 addr old) (.error err, old) m
  | writeEmpty (m : Mem) (addr : Nat) (err : Errno) : Served m (.write addr []) (.error err) m
  | call {m m' : Mem} {op : WordOp} {x : op.Ans} (fits : op.Fits) (h : Remote m op x m') :
      Served m op x m'

/-- The calls when no SPI transfer fails. With `late` the slave may stay busy, which is
answered with a timeout. -/
inductive Unfailing (late : Bool) : Mem → (op : WordOp) → op.Ans → Mem → Prop
  | readTooLong (m old : Mem) (size addr : Nat) (long : maxTransferSize < size) :
      Unfailing late m (.read size addr old) (.error .inval, old) m
  | writeTooLong (m : Mem) (addr : Nat) (bytes : List UInt8)
      (long : maxTransferSize < bytes.length) : Unfailing late m (.write addr bytes) (.error .inval) m
  | readEmpty (m old : Mem) (addr : Nat) :
      Unfailing late m (.read 0 addr old) (.error .inval, old) m
  | writeEmpty (m : Mem) (addr : Nat) : Unfailing late m (.write addr []) (.error .inval) m
  | read {m old buf : Mem} {size addr : Nat} {ret : Except Errno Unit} (pos : 0 < size)
      (fits : size ≤ maxTransferSize) (filled : ∀ i, i < size → buf i = m (addr + i))
      (waited : ret = .ok () ∨ late = true ∧ ret = .error .timedOut) :
      Unfailing late m (.read size addr old) (ret, buf) m
  | write {m : Mem} {addr : Nat} {bytes : List UInt8} {ret : Except Errno Unit}
      (pos : 0 < bytes.length) (fits : bytes.length ≤ maxTransferSize)
      (waited : ret = .ok () ∨ late = true ∧ ret = .error .timedOut) :
      Unfailing late m (.write addr bytes) ret (store m addr bytes)
  | nop (m : Mem) : Unfailing late m .nop (.ok ()) m

theorem Served.remote {m m' : Mem} {op : WordOp} {x : op.Ans} (h : Served m op x m') :
    Remote m op x m' := by
  cases h with
  | readTooLong old size addr => exact .readFail m old old size addr .inval
  | writeTooLong => exact .writeFail .inval fun _ _ => rfl
  | readEmpty old addr err => exact .readFail m old old 0 addr err
  | writeEmpty addr err => exact .writeFail err fun _ _ => rfl
  | call _ h => exact h

theorem Unfailing.served {late : Bool} {m m' : Mem} {op : WordOp} {x : op.Ans}
    (h : Unfailing late m op x m') : Served m op x m' := by
  cases h with
  | readTooLong old size addr long => exact .readTooLong m old size addr long
  | writeTooLong addr bytes long => exact .writeTooLong m addr bytes long
  | readEmpty old addr => exact .readEmpty m old addr .inval
  | writeEmpty addr => exact .writeEmpty m addr .inval
  | read pos fits filled waited =>
    obtain rfl | ⟨_, rfl⟩ := waited
    · exact .call ⟨pos, fits⟩ (.read filled)
    · exact .call ⟨pos, fits⟩ (.readFail ..)
  | write pos fits waited =>
    obtain rfl | ⟨_, rfl⟩ := waited
    · exact .call ⟨pos, fits⟩ (.write ..)
    · exact .call ⟨pos, fits⟩ (.writeFail _ fun x out => store_apply_of_not_mem _ (by omega))
  | nop => exact .call trivial (.nop ..)

/-- The driver is asked for a piece that is too long: the whole range, or what lies between
its first and its last word. -/
def TooLong (addr n : Nat) : Prop :=
  if addr % 4 = 0 ∧ n % 4 = 0 then maxTransferSize < n
  else maxTransferSize < alignDown (n - headSize addr n)

instance (addr n : Nat) : Decidable (TooLong addr n) := by
  unfold TooLong
  infer_instance

/-- The driver does not return 0: a piece is too long, or the only one has no bytes. -/
def Refused (addr n : Nat) : Prop := TooLong addr n ∨ addr % 4 = 0 ∧ n = 0

instance (addr n : Nat) : Decidable (Refused addr n) := by
  unfold Refused
  infer_instance

theorem not_refused_iff {addr n : Nat} : ¬Refused addr n ↔
    if addr % 4 = 0 ∧ n % 4 = 0 then 0 < n ∧ n ≤ maxTransferSize
    else alignDown (n - headSize addr n) ≤ maxTransferSize := by
  unfold Refused TooLong
  split <;> omega

/-! ## Calls that are not refused -/

section Short
variable {late : Bool} {m m' : Mem}

theorem Unfailing.read_short {size addr : Nat} {old buf : Mem}
    (h : Unfailing late m (.read size addr old) (.error .inval, buf) m') (some : 0 < size)
    (short : size ≤ maxTransferSize) : False := by
  cases h with
  | readTooLong long => omega
  | readEmpty => omega
  | read _ _ _ waited => obtain h | ⟨_, h⟩ := waited <;> cases h

theorem Unfailing.write_short {addr : Nat} {bytes : List UInt8}
    (h : Unfailing late m (.write addr bytes) (.error .inval) m') (some : 0 < bytes.length)
    (short : bytes.length ≤ maxTransferSize) : False := by
  cases h with
  | writeTooLong long => omega
  | writeEmpty => exact absurd some (Nat.lt_irrefl 0)
  | write _ _ waited => obtain h | ⟨_, h⟩ := waited <;> cases h

theorem Unfailing.read_same {size addr : Nat} {old buf : Mem} {ret : Except Errno Unit}
    (h : Unfailing late m (.read size addr old) (ret, buf) m') : m' = m := by
  cases h <;> rfl

theorem Unfailing.write_refused {addr : Nat} {bytes : List UInt8}
    (h : Unfailing late m (.write addr bytes) (.error .inval) m') : m' = m := by
  cases h with
  | writeTooLong => rfl
  | writeEmpty => rfl
  | write _ _ waited => obtain h | ⟨_, h⟩ := waited <;> cases h

end Short

/-! ## Lengths the driver moves -/

section Served
variable {n addr total : Nat} {m m' data buf : Mem}

theorem Served.read_fits {size : Nat} {old : Mem} {u : Unit}
    (h : Served m (.read size addr old) (.ok u, buf) m') : 0 < size ∧ size ≤ maxTransferSize := by
  cases h with
  | call fits => exact fits

theorem Served.write_fits {bytes : List UInt8} {u : Unit}
    (h : Served m (.write addr bytes) (.ok u) m') :
    0 < bytes.length ∧ bytes.length ≤ maxTransferSize := by
  cases h with
  | call fits => exact fits

theorem middle_cast {n : Nat} (small : n < 2 ^ 16) (total : Nat) :
    alignDown (n - total) % 2 ^ 16 = alignDown (n - total) :=
  Nat.mod_eq_of_lt (Nat.lt_of_le_of_lt (Nat.div_mul_le_self _ _) (by omega))

/-- A range the driver has read is none it refuses. -/
theorem read_served (small : n < 2 ^ 16) {r : Except Errno Unit × Mem}
    (run : (qcspiReadAddrAlign n addr (some buf)).Runs Served m r m') (ok : r.1 = .ok ()) :
    ¬Refused addr n := by
  rw [not_refused_iff]
  simp only [qcspiReadAddrAlign, qcspiRead, Script.perform_bind, Script.pure_eq] at run
  split at run
  next aligned =>
    rw [if_pos aligned]
    obtain ⟨⟨res, bytes⟩, t, step, rest⟩ := run.call_inv
    obtain ⟨rfl, rfl⟩ := rest.ret_inv
    obtain rfl : res = .ok () := ok
    exact step.read_fits
  next unaligned =>
    rw [if_neg unaligned]
    obtain ⟨⟨res, word⟩, t, step, rest⟩ := run.call_inv
    cases res with
    | error err =>
      obtain ⟨rfl, _⟩ := rest.ret_inv
      cases ok
    | ok u =>
      dsimp only at rest
      split at rest
      next all =>
        rw [Nat.sub_eq_zero_of_le all]
        decide
      next more =>
        unfold readRest at rest
        split at rest
        next =>
          simp only [qcspiRead, Script.perform_bind] at rest
          obtain ⟨⟨res, bytes⟩, t', step, rest⟩ := rest.call_inv
          cases res with
          | error err =>
            obtain ⟨rfl, _⟩ := rest.ret_inv
            cases ok
          | ok u =>
            have fits := step.read_fits
            rw [middle_cast small] at fits
            exact fits.2
        next short =>
          have : alignDown (n - headSize addr n) ≤ n - headSize addr n := Nat.div_mul_le_self _ _
          have : maxTransferSize = 1500 := rfl
          omega

theorem write_served {R : Mem → (op : WordOp) → op.Ans → Mem → Prop}
    (checked : ∀ {m m' addr bytes}, R m (.write addr bytes) (.ok ()) m' →
      0 < bytes.length ∧ bytes.length ≤ maxTransferSize) (small : n < 2 ^ 16)
    (run : (qcspiWriteAddrAlign n addr (some data)).Runs R m (.ok ()) m') : ¬Refused addr n := by
  rw [not_refused_iff]
  simp only [qcspiWriteAddrAlign, qcspiRead, qcspiWrite, Script.perform, Script.call_bind,
    Script.ret_bind, Script.pure_eq] at run
  split at run
  next aligned =>
    rw [if_pos aligned]
    obtain ⟨res, t, step, rest⟩ := run.call_inv
    obtain ⟨rfl, rfl⟩ := rest.ret_inv
    have fits := checked step
    rw [length_load] at fits
    exact fits
  next unaligned =>
    rw [if_neg unaligned]
    obtain ⟨⟨res, word⟩, t, step, rest⟩ := run.call_inv
    cases res with
    | error err =>
      obtain ⟨⟨⟩, _⟩ := rest.ret_inv
    | ok u =>
      obtain ⟨_, t', _, rest⟩ := rest.call_inv
      obtain ⟨res, _, step, rest⟩ := rest.call_inv
      cases res with
      | error err =>
        obtain ⟨⟨⟩, _⟩ := rest.ret_inv
      | ok u =>
        dsimp only at rest
        split at rest
        next all =>
          rw [Nat.sub_eq_zero_of_le all]
          decide
        next more =>
          unfold writeRest at rest
          split at rest
          next =>
            simp only [qcspiWrite, Script.perform_bind] at rest
            obtain ⟨res, t', step, rest⟩ := rest.call_inv
            cases res with
            | error err =>
              obtain ⟨⟨⟩, _⟩ := rest.ret_inv
            | ok u =>
              have fits := checked step
              rw [length_load, middle_cast small] at fits
              exact fits.2
          next short =>
            have : alignDown (n - headSize addr n) ≤ n - headSize addr n := Nat.div_mul_le_self _ _
            have : maxTransferSize = 1500 := rfl
            omega

/-- The answers of a link on which nothing fails. -/
def serveWord : (op : WordOp) → Mem → op.Ans × Mem
  | .read size addr old, m =>
    if 0 < size ∧ size ≤ maxTransferSize then ((.ok (), fun i => m (addr + i)), m)
    else ((.error .inval, old), m)
  | .write addr bytes, m =>
    if 0 < bytes.length ∧ bytes.length ≤ maxTransferSize then (.ok (), store m addr bytes)
    else (.error .inval, m)
  | .nop, m => (.ok (), m)

theorem serveWord_unfailing (late : Bool) (op : WordOp) (m : Mem) :
    Unfailing late m op (serveWord op m).1 (serveWord op m).2 := by
  cases op with
  | read size addr old =>
    rw [serveWord]
    split
    next fits => exact .read fits.1 fits.2 (fun _ _ => rfl) (.inl rfl)
    next bad =>
      obtain rfl | some := Nat.eq_zero_or_pos size
      · exact .readEmpty m old addr
      · exact .readTooLong m old size addr (by omega)
  | write addr bytes =>
    rw [serveWord]
    split
    next fits => exact .write fits.1 fits.2 (.inl rfl)
    next bad =>
      cases bytes with
      | nil => exact .writeEmpty m addr
      | cons byte bytes =>
        refine .writeTooLong m addr _ ?_
        rw [List.length_cons] at bad ⊢
        omega
  | nop => exact .nop m

theorem Unfailing.read_fine {size : Nat} {old buf : Mem} {ret : Except Errno Unit}
    (h : Unfailing false m (.read size addr old) (ret, buf) m') (some : 0 < size)
    (fits : size ≤ maxTransferSize) : ret = .ok () := by
  cases h with
  | readTooLong long => omega
  | readEmpty => omega
  | read _ _ _ waited => exact waited.resolve_right (by rintro ⟨⟨⟩, _⟩)

theorem Unfailing.write_fine {bytes : List UInt8} {ret : Except Errno Unit}
    (h : Unfailing false m (.write addr bytes) ret m') (some : 0 < bytes.length)
    (fits : bytes.length ≤ maxTransferSize) : ret = .ok () := by
  cases h with
  | writeTooLong long => omega
  | writeEmpty => exact absurd some (Nat.lt_irrefl 0)
  | write _ _ waited => exact waited.resolve_right (by rintro ⟨⟨⟩, _⟩)

theorem middle_pos {total : Nat} (middle : total + 4 ≤ n) : 0 < alignDown (n - total) := by
  unfold alignDown
  omega

theorem readTail_fine {r : Except Errno Unit × Mem}
    (run : (readTail n addr total buf).Runs (Unfailing false) m r m') : r.1 = .ok () := by
  simp only [readTail, qcspiRead, Script.perform_bind, Script.pure_eq] at run
  obtain ⟨⟨res, word⟩, t, step, rest⟩ := run.call_inv
  obtain rfl := step.read_fine (by decide) (by decide)
  obtain ⟨rfl, _⟩ := rest.ret_inv
  rfl

/-- Without failing transfers the only errors of a read are the refusals. -/
theorem read_fine (small : n < 2 ^ 16) (taken : ¬Refused addr n) {r : Except Errno Unit × Mem}
    (run : (qcspiReadAddrAlign n addr (some buf)).Runs (Unfailing false) m r m') :
    r.1 = .ok () := by
  simp only [qcspiReadAddrAlign, qcspiRead, Script.perform_bind, Script.pure_eq] at run
  split at run
  next aligned =>
    rw [not_refused_iff, if_pos aligned] at taken
    obtain ⟨⟨res, bytes⟩, t, step, rest⟩ := run.call_inv
    obtain ⟨rfl, rfl⟩ := rest.ret_inv
    exact step.read_fine taken.1 taken.2
  next unaligned =>
    rw [not_refused_iff, if_neg unaligned] at taken
    obtain ⟨⟨res, word⟩, t, step, rest⟩ := run.call_inv
    obtain rfl := step.read_fine (by decide) (by decide)
    dsimp only at rest
    split at rest
    next =>
      obtain ⟨rfl, _⟩ := rest.ret_inv
      rfl
    next =>
      unfold readRest at rest
      split at rest
      next middle =>
        simp only [qcspiRead, Script.perform_bind, Script.pure_eq] at rest
        obtain ⟨⟨res, bytes⟩, t', step, rest⟩ := rest.call_inv
        rw [middle_cast small] at step
        obtain rfl := step.read_fine (middle_pos middle) taken
        dsimp only at rest
        split at rest
        next =>
          obtain ⟨rfl, _⟩ := rest.ret_inv
          rfl
        next => exact readTail_fine rest
      next => exact readTail_fine rest

theorem writeTail_fine {r : Except Errno Unit}
    (run : (writeTail data n addr total).Runs (Unfailing false) m r m') : r = .ok () := by
  simp only [writeTail, qcspiRead, qcspiWrite, Script.perform, Script.call_bind, Script.ret_bind,
    Script.pure_eq] at run
  obtain ⟨⟨res, word⟩, t, step, rest⟩ := run.call_inv
  obtain rfl := step.read_fine (by decide) (by decide)
  obtain ⟨res, t', step, rest⟩ := rest.call_inv
  obtain ⟨rfl, _⟩ := rest.ret_inv
  exact step.write_fine (by rw [length_patch]; decide) (by rw [length_patch]; decide)

theorem writeRest_fine (small : n < 2 ^ 16) (short : alignDown (n - total) ≤ maxTransferSize)
    {r : Except Errno Unit}
    (run : (writeRest data n addr total).Runs (Unfailing false) m r m') : r = .ok () := by
  unfold writeRest at run
  split at run
  next middle =>
    simp only [qcspiWrite, Script.perform_bind, Script.pure_eq] at run
    obtain ⟨res, t, step, rest⟩ := run.call_inv
    rw [middle_cast small] at step
    obtain rfl := step.write_fine (by rw [length_load]; exact middle_pos middle)
      (by rw [length_load]; exact short)
    dsimp only at rest
    split at rest
    next =>
      obtain ⟨rfl, _⟩ := rest.ret_inv
      rfl
    next => exact writeTail_fine rest
  next => exact writeTail_fine run

theorem write_fine (small : n < 2 ^ 16) (taken : ¬Refused addr n) {r : Except Errno Unit}
    (run : (qcspiWriteAddrAlign n addr (some data)).Runs (Unfailing false) m r m') :
    r = .ok () := by
  simp only [qcspiWriteAddrAlign, qcspiRead, qcspiWrite, Script.perform, Script.call_bind,
    Script.ret_bind, Script.pure_eq] at run
  split at run
  next aligned =>
    rw [not_refused_iff, if_pos aligned] at taken
    obtain ⟨res, t, step, rest⟩ := run.call_inv
    obtain ⟨rfl, rfl⟩ := rest.ret_inv
    rw [← length_load data 0 n] at taken
    exact step.write_fine taken.1 taken.2
  next unaligned =>
    rw [not_refused_iff, if_neg unaligned] at taken
    obtain ⟨⟨res, word⟩, t, step, rest⟩ := run.call_inv
    obtain rfl := step.read_fine (by decide) (by decide)
    obtain ⟨_, t', _, rest⟩ := rest.call_inv
    obtain ⟨res, _, step, rest⟩ := rest.call_inv
    obtain rfl := step.write_fine (by rw [length_patch]; decide) (by rw [length_patch]; decide)
    dsimp only at rest
    split at rest
    next =>
      obtain ⟨rfl, _⟩ := rest.ret_inv
      rfl
    next => exact writeRest_fine small taken rest

/-- What is not refused has a run that returns 0. -/
theorem qcspiWriteAddrAlign_serves (small : n < 2 ^ 16) (taken : ¬Refused addr n) (data m : Mem) :
    ∃ m', (qcspiWriteAddrAlign n addr (some data)).Runs Served m (.ok ()) m' := by
  have run := Script.runs_exec (serveWord_unfailing false)
    (qcspiWriteAddrAlign n addr (some data)) m
  rw [write_fine small taken run] at run
  exact ⟨_, run.mono fun _ _ _ _ h => h.served⟩

theorem writeRest_serves (small : n < 2 ^ 16) (short : alignDown (n - total) ≤ maxTransferSize)
    (data m : Mem) : ∃ m', (writeRest data n addr total).Runs Served m (.ok ()) m' := by
  have run := Script.runs_exec (serveWord_unfailing false) (writeRest data n addr total) m
  rw [writeRest_fine small short run] at run
  exact ⟨_, run.mono fun _ _ _ _ h => h.served⟩

end Served

/-! ## Refused writes -/

section Refused
variable {late : Bool} {n addr total : Nat} {m m' data : Mem}

theorem writeTail_not_refused
    (run : (writeTail data n addr total).Runs (Unfailing late) m (.error .inval) m') : False := by
  simp only [writeTail, qcspiRead, qcspiWrite, Script.perform, Script.call_bind, Script.ret_bind,
    Script.pure_eq] at run
  obtain ⟨⟨res, word⟩, t, step, rest⟩ := run.call_inv
  cases res with
  | error err =>
    obtain ⟨⟨rfl⟩, _⟩ := rest.ret_inv
    exact step.read_short (by decide) (by decide)
  | ok u =>
    obtain ⟨res, t', step, rest⟩ := rest.call_inv
    obtain ⟨rfl, _⟩ := rest.ret_inv
    exact step.write_short (by rw [length_patch]; decide) (by rw [length_patch]; decide)

theorem writeRest_refused (small : n < 2 ^ 16)
    (run : (writeRest data n addr total).Runs (Unfailing late) m (.error .inval) m') :
    maxTransferSize < alignDown (n - total) := by
  unfold writeRest at run
  split at run
  next middle =>
    have whole : alignDown (n - total) ≤ n - total := Nat.div_mul_le_self _ _
    have cast : alignDown (n - total) % 2 ^ 16 = alignDown (n - total) :=
      Nat.mod_eq_of_lt (by omega)
    simp only [qcspiWrite, Script.perform_bind, Script.pure_eq] at run
    obtain ⟨res, t, step, rest⟩ := run.call_inv
    cases res with
    | error err =>
      obtain ⟨⟨rfl⟩, _⟩ := rest.ret_inv
      by_contra short
      have some : 0 < alignDown (n - total) := by
        unfold alignDown
        omega
      exact step.write_short (by rw [length_load]; omega) (by rw [length_load]; omega)
    | ok u =>
      dsimp only at rest
      split at rest
      next =>
        obtain ⟨⟨⟩, _⟩ := rest.ret_inv
      next => exact (writeTail_not_refused rest).elim
  next => exact (writeTail_not_refused run).elim

/-- A write that is refused as a whole, or not at all, has no effect. -/
theorem refused_write_same (small : n < 2 ^ 16)
    (early : addr % 4 = 0 ∧ n % 4 = 0 ∨ ¬TooLong addr n) {data : Option Mem}
    (run : (qcspiWriteAddrAlign n addr data).Runs (Unfailing late) m (.error .inval) m') :
    m' = m := by
  cases data with
  | none => exact run.ret_inv.2.symm
  | some data =>
    simp only [qcspiWriteAddrAlign, qcspiRead, qcspiWrite, Script.perform, Script.call_bind,
      Script.ret_bind, Script.pure_eq] at run
    split at run
    next aligned =>
      obtain ⟨res, t, step, rest⟩ := run.call_inv
      obtain ⟨rfl, rfl⟩ := rest.ret_inv
      exact step.write_refused
    next unaligned =>
      have short : ¬maxTransferSize < alignDown (n - headSize addr n) := by
        have := early.resolve_left unaligned
        rwa [TooLong, if_neg unaligned] at this
      obtain ⟨⟨res, word⟩, t, step, rest⟩ := run.call_inv
      cases res with
      | error err =>
        obtain ⟨⟨rfl⟩, rfl⟩ := rest.ret_inv
        exact step.read_same
      | ok u =>
        obtain ⟨_, t', _, rest⟩ := rest.call_inv
        obtain ⟨res, _, step, rest⟩ := rest.call_inv
        cases res with
        | error err =>
          obtain ⟨⟨rfl⟩, _⟩ := rest.ret_inv
          exact (step.write_short (by rw [length_patch]; decide)
            (by rw [length_patch]; decide)).elim
        | ok u =>
          dsimp only at rest
          split at rest
          next =>
            obtain ⟨⟨⟩, _⟩ := rest.ret_inv
          next => exact absurd (writeRest_refused small rest) short

/-- Otherwise the first word has been written when the rest is refused. -/
theorem refused_write_spoils (small : n < 2 ^ 16) (unaligned : ¬(addr % 4 = 0 ∧ n % 4 = 0))
    (long : TooLong addr n) (data m : Mem) :
    (qcspiWriteAddrAlign n addr (some data)).Runs (Unfailing late) m (.error .inval)
      (store m addr (load data 0 (headSize addr n))) := by
  rw [TooLong, if_neg unaligned] at long
  have whole : alignDown (n - headSize addr n) ≤ n - headSize addr n := Nat.div_mul_le_self _ _
  have more : ¬n ≤ headSize addr n := by
    intro all
    rw [Nat.sub_eq_zero_of_le all] at long
    exact absurd long (by decide)
  have middle : headSize addr n + 4 ≤ n := by
    have : 1500 < alignDown (n - headSize addr n) := long
    omega
  have cast : alignDown (n - headSize addr n) % 2 ^ 16 = alignDown (n - headSize addr n) :=
    Nat.mod_eq_of_lt (by omega)
  simp only [qcspiWriteAddrAlign, qcspiRead, qcspiWrite, Script.perform_bind, Script.pure_eq,
    if_neg unaligned]
  have word : ∀ i, i < 4 → m (alignDown addr + i) = m (alignDown addr + i) := fun _ _ => rfl
  apply Script.Runs.call (.read (by decide) (by decide) word (.inl rfl))
  apply Script.Runs.call (.nop m)
  apply Script.Runs.call (.write (by rw [length_patch]; decide) (by rw [length_patch]; decide)
    (.inl rfl))
  dsimp only
  have patched : store m (alignDown addr) (patch (fun i => m (alignDown addr + i)) (addr % 4)
      (load data 0 (headSize addr n))) = store m addr (load data 0 (headSize addr n)) := by
    have loaded : load (fun i => m (alignDown addr + i)) 0 4 = load m (alignDown addr) 4 :=
      load_congr fun i _ => by rw [Nat.zero_add]
    rw [store_patch loaded (by rw [length_load]; exact headSize_inside addr n), alignDown_add_mod]
  rw [if_neg more, patched, writeRest, if_pos middle]
  simp only [qcspiWrite, Script.perform_bind, Script.pure_eq]
  apply Script.Runs.call (.writeTooLong _ _ _ (by rw [length_load, cast]; exact long))
  exact .ret _ _

end Refused

/-- A write that is refused leaves the remote memory alone, whatever it holds and whatever
is to be written, exactly if the driver meets the piece that is too long first or never. -/
theorem refused_writes_same_iff {n : Nat} (small : n < 2 ^ 16) (addr : Nat) :
    (∀ data m m', (qcspiWriteAddrAlign n addr data).Runs (Unfailing true) m (.error .inval) m' →
      m' = m) ↔ addr % 4 = 0 ∧ n % 4 = 0 ∨ ¬TooLong addr n := by
  constructor
  · intro same
    by_contra late
    rw [not_or, not_not] at late
    obtain ⟨unaligned, long⟩ := late
    have run : (qcspiWriteAddrAlign n addr (some fun _ => 1)).Runs (Unfailing true) (fun _ => 0)
        (.error .inval) (store (fun _ => 0) addr (load (fun _ => 1) 0 (headSize addr n))) :=
      refused_write_spoils small unaligned long _ _
    have kept := congrFun (same _ _ _ run) addr
    have one : 0 < headSize addr n := by
      rw [TooLong, if_neg unaligned] at long
      have whole : alignDown (n - headSize addr n) ≤ n - headSize addr n := Nat.div_mul_le_self _ _
      have : 1500 < alignDown (n - headSize addr n) := long
      have nonempty : 0 < n := by omega
      unfold headSize
      split <;> omega
    rw [store_apply_of_mem _ (Nat.le_refl _) (by rw [length_load]; omega), Nat.sub_self,
      getD_load _ _ one] at kept
    exact absurd kept (by decide)
  · exact fun early _ _ _ => refused_write_same small early

/-- 1504 bytes at address 0: the one piece there is gets refused, and no byte changes. -/
theorem refused_writes_same_at : ∃ m', (qcspiWriteAddrAlign 1504 0 (some fun _ => 1)).Runs
    (Unfailing true) (fun _ => 0) (.error .inval) m' ∧ m' = fun _ => 0 := by
  have same := (refused_writes_same_iff (n := 1504) (by decide) 0).mpr (.inl ⟨rfl, rfl⟩)
  have run : (qcspiWriteAddrAlign 1504 0 (some fun _ => 1)).Runs (Unfailing true) (fun _ => 0)
      (.error .inval) fun _ => 0 :=
    .call (.writeTooLong _ _ _ (by rw [length_load]; decide)) (.ret _ _)
  exact ⟨_, run, same _ _ _ run⟩

/-- 1507 bytes at address 1: the first three bytes are there when the rest is refused. -/
theorem refused_write_changes : ¬∀ n addr data m m', n < 2 ^ 16 →
    (qcspiWriteAddrAlign n addr data).Runs (Unfailing true) m (.error .inval) m' → m' = m := by
  intro same
  have run : (qcspiWriteAddrAlign 1507 1 (some fun _ => 1)).Runs (Unfailing true) (fun _ => 0)
      (.error .inval) (store (fun _ => 0) 1 (load (fun _ => 1) 0 (headSize 1 1507))) :=
    refused_write_spoils (by decide) (by decide) (by decide) _ _
  have kept := congrFun (same 1507 1 _ _ _ (by decide) run) 1
  exact absurd kept (by decide)

end Qapp.Spi
