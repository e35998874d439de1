import Qapp.Spi.Atomic
import Qapp.Spi.Port

/-!
# Chip select after a call

The driver's protocol of lock, header and data phase, followed down to the pins.
-/

namespace Qapp.Spi.Port
open ByteMem Ticks
open Bus (Transfer Op Mode Phase)

/-- Nothing is selected, and nobody has the lock. -/
def rest : State := ⟨false, false⟩

/-- However the transfers end, the access ends with chip select inactive and the lock free. -/
def Releases (port : Platform) (ctx : Ctx) (a : Access) : Prop :=
  ∀ ret s, (a.run port ctx).Runs Acts rest ret s → s = rest

/-- A read or write of no bytes, with a buffer. -/
def Access.Empty : Access → Prop
  | .read size _ (some _) => size = 0
  | .write _ (some bytes) => bytes = []
  | _ => False

/-! ## One transfer -/

variable {port : Platform} {ctx : Ctx} {t : Transfer} {s u : State} {ret : Except Errno Unit}
  {payload : t.Payload}

theorem halTransfer_pins (run : (halTransfer t).Runs Acts s (ret, payload) u) : u = s := by
  simp only [halTransfer, Script.perform_bind, Script.pure_eq] at run
  obtain ⟨x, s', hal, run⟩ := run.call_inv
  cases hal
  split at run
  · exact run.ret_inv.2.symm
  · obtain ⟨how, s', wait, run⟩ := run.call_inv
    cases wait
    cases how <;> exact run.ret_inv.2.symm

/-- Without a context or without bytes, nothing happens. -/
theorem spiTransceive_refused (refused : ctx ≠ some true ∨ t.len = 0)
    (run : (spiTransceive port ctx t).Runs Acts s (ret, payload) u) : Fails ret = true ∧ u = s := by
  cases port with
  | freertos =>
    simp only [spiTransceive, spiTransceiveFreertos] at run
    split at run
    · obtain ⟨⟨⟩, rfl⟩ := run.ret_inv
      exact ⟨rfl, rfl⟩
    · rename_i usable
      rw [if_pos (refused.resolve_left usable)] at run
      obtain ⟨⟨⟩, rfl⟩ := run.ret_inv
      exact ⟨rfl, rfl⟩
  | zephyr =>
    simp only [spiTransceive, spiTransceiveZephyr] at run
    cases ctx with
    | none =>
      obtain ⟨⟨⟩, rfl⟩ := run.ret_inv
      exact ⟨rfl, rfl⟩
    | some initialized =>
      dsimp only at run
      split at run
      · obtain ⟨⟨⟩, rfl⟩ := run.ret_inv
        exact ⟨rfl, rfl⟩
      · rename_i filled
        cases initialized with
        | false =>
          obtain ⟨⟨⟩, rfl⟩ := run.ret_inv
          exact ⟨rfl, rfl⟩
        | true => exact absurd rfl (refused.resolve_right filled)

theorem zephyrErrno_fails {err : Int} (positive : 0 < err) :
    Fails (zephyrErrnoToPlatform err) = true := by
  unfold zephyrErrnoToPlatform
  rw [if_neg (by omega)]
  split <;> [rfl; split <;> [rfl; split <;> [rfl; split <;> rfl]]]

/-- Otherwise chip select is held if the transfer holds it and succeeds. -/
theorem spiTransceive_selects (filled : 0 < t.len)
    (run : (spiTransceive port (some true) t).Runs Acts s (ret, payload) u) :
    u = { s with csActive := !Fails ret && t.holdCs } := by
  cases port with
  | freertos =>
    simp only [spiTransceive, spiTransceiveFreertos, ne_eq, not_true_eq_false, if_false,
      Nat.ne_of_gt filled, Script.perform_bind, Script.pure_eq] at run
    obtain ⟨_, _, low, run⟩ := run.call_inv
    cases low
    obtain ⟨⟨r, x⟩, _, hal, run⟩ := run.split
    have same := halTransfer_pins hal
    subst same
    dsimp only at run
    split at run
    next high =>
      obtain ⟨_, _, up, run⟩ := run.call_inv
      cases up
      obtain ⟨⟨⟩, rfl⟩ := run.ret_inv
      cases fails : Fails ret <;> simp_all
    next low =>
      obtain ⟨⟨⟩, rfl⟩ := run.ret_inv
      cases fails : Fails ret <;> simp_all
  | zephyr =>
    simp only [spiTransceive, spiTransceiveZephyr, Nat.ne_of_gt filled, if_false, Bool.not_true,
      Bool.false_eq_true, Script.perform_bind, Script.pure_eq] at run
    obtain ⟨_, _, low, run⟩ := run.call_inv
    cases low
    obtain ⟨⟨r, x⟩, _, spi, run⟩ := run.call_inv
    cases spi
    dsimp only at run
    have ends : ∀ v : State, (if r < 0 then Script.call (PinOp.cs false) fun _ =>
          Script.ret (zephyrErrnoToPlatform (-r), x)
        else Script.ret (.ok (), x)).Runs Acts v (ret, payload) u →
        u = { v with csActive := !Fails ret && v.csActive } := by
      intro v run
      split at run
      next negative =>
        obtain ⟨_, _, up, run⟩ := run.call_inv
        cases up
        obtain ⟨⟨⟩, rfl⟩ := run.ret_inv
        rw [zephyrErrno_fails (by omega)]
        rfl
      next =>
        obtain ⟨⟨⟩, rfl⟩ := run.ret_inv
        rfl
    split at run
    next hold => rw [ends _ run, hold]
    next release =>
      obtain ⟨_, _, up, run⟩ := run.call_inv
      cases up
      rw [ends _ run, Bool.and_false, Bool.eq_false_iff.mpr release, Bool.and_false]

/-! ## The driver's protocol -/

/-- The pins in a mode of the protocol. -/
structure Fits (usable : Prop) (m : Mode) (s : State) : Prop where
  mutex : s.mutexHeld = true ↔ m.phase ≠ .idle
  cs : s.csActive = true ↔ m.phase = .selected
  usable : m.phase = .selected → usable

/-- No transfer of no bytes. -/
def Filled : Op → Prop
  | .transfer t => 0 < t.len
  | _ => True

/-- A transfer neither takes nor releases the lock, and only a header that is sent selects. -/
theorem step_transfer {m n : Mode} (allowed : m.step (.transfer t) (t.answer ret payload) = some n) :
    (n.phase = .idle ↔ m.phase = .idle) ∧
      (n.phase = .selected ↔ t.holdCs = true ∧ Fails ret = false) := by
  cases t with
  | nop | writeData | rdsr | irr | irw | readData =>
    simp only [Mode.step, Option.ite_none_right_eq_some] at allowed
    obtain ⟨ready, ⟨⟩⟩ := allowed
    simp [Bus.Transfer.holdCs, ready]
  | fread | write =>
    cases ret <;>
      simp only [Bus.Transfer.answer, Mode.step, Option.ite_none_right_eq_some] at allowed <;>
      obtain ⟨ready, ⟨⟩⟩ := allowed <;> simp [Bus.Transfer.holdCs, Fails, ready]

theorem Fits.transfer {m n : Mode} (fits : Fits (ctx = some true) m s)
    (filled : ctx = some true → 0 < t.len)
    (allowed : m.step (.transfer t) (t.answer ret payload) = some n)
    (run : (spiTransceive port ctx t).Runs Acts s (ret, payload) u) :
    Fits (ctx = some true) n u := by
  obtain ⟨same, selects⟩ := step_transfer allowed
  by_cases usable : ctx = some true
  · subst usable
    have after := spiTransceive_selects (filled rfl) run
    subst after
    constructor
    · rw [ne_eq, same]
      exact fits.mutex
    · rw [selects]
      simp [and_comm]
    · exact fun _ => rfl
  · obtain ⟨fails, rfl⟩ := spiTransceive_refused (.inl usable) run
    have idle : m.phase ≠ .selected := fun h => usable (fits.usable h)
    have idle' : n.phase ≠ .selected := by
      rw [ne_eq, selects, fails]
      simp
    constructor
    · rw [ne_eq, same]
      exact fits.mutex
    · rw [fits.cs]
      exact iff_of_false idle idle'
    · exact fun h => absurd h idle'

theorem Fits.call {m n : Mode} {op : Op} {x : op.Ans} (filled : ctx = some true → Filled op)
    (fits : Fits (ctx = some true) m s) (allowed : m.step op x = some n)
    (run : (busCall port ctx op).Runs Acts s x u) : Fits (ctx = some true) n u := by
  cases op with
  | lock =>
    obtain ⟨_, _, act, run⟩ := run.call_inv
    cases act
    obtain ⟨-, rfl⟩ := run.ret_inv
    simp only [Mode.step, Option.ite_none_right_eq_some] at allowed
    obtain ⟨idle, ⟨⟩⟩ := allowed
    have low := fits.cs
    rw [idle] at low
    constructor
    · simp
    · simpa using low
    · simp
  | unlock =>
    obtain ⟨_, _, act, run⟩ := run.call_inv
    cases act
    obtain ⟨-, rfl⟩ := run.ret_inv
    simp only [Mode.step, Option.ite_none_right_eq_some] at allowed
    obtain ⟨locked, ⟨⟩⟩ := allowed
    have low := fits.cs
    rw [locked] at low
    constructor
    · simp
    · simpa using low
    · simp
  | transfer t =>
    obtain ⟨⟨ret, payload⟩, _, first, run⟩ := run.split
    obtain ⟨rfl, rfl⟩ := run.ret_inv
    exact fits.transfer filled allowed first

/-! ## Accesses with bytes -/

theorem irw_filled (reg val : Nat) : (Bus.qcspiIRW reg val).All Filled :=
  ⟨trivial, fun _ => ⟨Nat.succ_pos _, fun _ => ⟨trivial, fun _ => trivial⟩⟩⟩

theorem rdsr_filled (status : Option Unit) : (Bus.qcspiRDSR status).All Filled := by
  cases status with
  | none => trivial
  | some => exact ⟨trivial, fun _ => ⟨Nat.succ_pos _, fun _ => ⟨trivial, fun _ => trivial⟩⟩⟩

theorem irr_filled (reg : Nat) (regVal : Option Unit) : (Bus.qcspiIRR reg regVal).All Filled := by
  cases regVal with
  | none => trivial
  | some => exact ⟨trivial, fun _ => ⟨Nat.succ_pos _, fun _ => ⟨trivial, fun _ => trivial⟩⟩⟩

theorem waitReady_filled (left : Nat) : (Bus.waitReady left).All Filled := by
  induction left with
  | zero => trivial
  | succ left ih =>
    apply (rdsr_filled _).bind
    rintro (_ | status)
    · dsimp only
      split
      · trivial
      · exact ih
    · dsimp only
      split
      · trivial
      · split
        · trivial
        · exact ih

theorem access_filled {a : Access} (filled : ¬a.Empty) : (Bus.driver a.call).All Filled := by
  cases a with
  | read size addr rcvBuf =>
    cases rcvBuf with
    | none => trivial
    | some buf =>
      simp only [Access.call, Bus.driver, Bus.qcspiRead]
      split
      · trivial
      · apply (irw_filled _ _).bind
        intro _
        refine ⟨trivial, fun _ => ⟨Nat.succ_pos _, ?_⟩⟩
        rintro (_ | _)
        · exact ⟨trivial, fun _ => trivial⟩
        · refine ⟨Nat.pos_of_ne_zero filled, ?_⟩
          rintro ⟨_ | _, _⟩
          · exact ⟨trivial, fun _ => trivial⟩
          · exact ⟨trivial, fun _ => (waitReady_filled _).bind fun _ => trivial⟩
  | write addr sndBuf =>
    cases sndBuf with
    | none => trivial
    | some bytes =>
      simp only [Access.call, Bus.driver, Bus.qcspiWrite]
      split
      · trivial
      · refine ⟨trivial, fun _ => ⟨Nat.succ_pos _, ?_⟩⟩
        rintro (_ | _)
        · exact ⟨trivial, fun _ => trivial⟩
        · refine ⟨List.length_pos_iff.mpr filled, ?_⟩
          rintro (_ | _)
          · exact ⟨trivial, fun _ => trivial⟩
          · exact ⟨trivial, fun _ => waitReady_filled _⟩
  | rdsr status => exact rdsr_filled status
  | irr reg regVal => exact irr_filled reg regVal
  | irw reg val => exact irw_filled reg val

theorem releases_of_filled {a : Access} (filled : ¬(ctx = some true ∧ a.Empty)) :
    Releases port ctx a := by
  intro ret s run
  have all : (Bus.driver a.call).All fun op => ctx = some true → Filled op := by
    by_cases usable : ctx = some true
    · exact (access_filled fun empty => filled ⟨usable, empty⟩).mono fun _ h _ => h
    · exact .of_forall (fun _ h => absurd h usable) _
  have fits : Fits (ctx = some true) ⟨.idle, none⟩ rest := by
    constructor <;> simp [rest]
  obtain ⟨n, idle, fits⟩ := (Script.runs_expand_iff.mp run).follows
    (Bus.driver_orderly a.call ⟨.idle, none⟩ rfl) all fits Fits.call
  have free := fits.mutex
  have low := fits.cs
  rw [Mode.Idle] at idle
  obtain ⟨csActive, mutexHeld⟩ := s
  simp only [idle] at free low
  cases csActive <;> cases mutexHeld <;> simp_all [rest]

/-! ## Accesses without bytes -/

theorem transfer_ok (short : t.len ≤ 16) (filled : 0 < t.len) (s : State) :
    (busCall port (some true) (.transfer t)).Runs Acts s (t.answer (.ok ()) t.untouched)
      { s with csActive := t.holdCs } := by
  have none : t.len ≠ 0 := Nat.ne_of_gt filled
  cases port with
  | freertos =>
    simp only [busCall, spiTransceive, spiTransceiveFreertos, halTransfer, none, short, ne_eq,
      not_true_eq_false, if_false, true_or, if_true, Script.perform_bind, Script.pure_eq]
    apply Script.Runs.call (.cs s true)
    apply Script.Runs.call (.hal _ t _ (.ok, t.untouched))
    cases t.holdCs with
    | true => exact .ret _ _
    | false => exact .call (.cs _ false) (.ret _ _)
  | zephyr =>
    simp only [busCall, spiTransceive, spiTransceiveZephyr, none, Bool.not_true,
      Bool.false_eq_true, if_false, Script.perform_bind, Script.pure_eq]
    apply Script.Runs.call (.cs s true)
    apply Script.Runs.call (.spiTransceive _ t (0, t.untouched))
    cases t.holdCs with
    | true => exact .ret _ _
    | false => exact .call (.cs _ false) (.ret _ _)

theorem transfer_refused (empty : t.len = 0) (s : State) :
    (busCall port (some true) (.transfer t)).Runs Acts s
      (t.answer (.error .inval) t.untouched) s := by
  cases port <;>
    simp only [busCall, spiTransceive, spiTransceiveFreertos, spiTransceiveZephyr, empty, ne_eq,
      not_true_eq_false, if_false, if_true, Script.pure_eq] <;>
    exact .ret _ _

theorem lock_free {s : State} (free : s.mutexHeld = false) :
    (busCall port ctx .lock).Runs Acts s () { s with mutexHeld := true } :=
  .call (.lock free) (.ret _ _)

theorem unlock_runs (s : State) :
    (busCall port ctx .unlock).Runs Acts s () { s with mutexHeld := false } :=
  .call (.unlock s) (.ret _ _)

/-- The refused data phase leaves chip select where the header has put it. -/
theorem empty_selected {a : Access} (empty : a.Empty) :
    ∃ ret, (a.run port (some true)).Runs Acts rest ret ⟨true, false⟩ := by
  cases a with
  | read size addr rcvBuf =>
    cases rcvBuf with
    | none => cases empty
    | some buf =>
      cases empty
      refine ⟨(.error .inval, buf), Script.runs_expand_iff.mpr ?_⟩
      apply Script.Runs.call (lock_free rfl)
      apply Script.Runs.call (transfer_ok (by simp [Bus.Transfer.len]) (by simp [Bus.Transfer.len]) _)
      apply Script.Runs.call (unlock_runs _)
      apply Script.Runs.call (lock_free rfl)
      apply Script.Runs.call (transfer_ok (by simp [Bus.Transfer.len]) (by simp [Bus.Transfer.len]) _)
      apply Script.Runs.call (transfer_refused rfl _)
      apply Script.Runs.call (unlock_runs _)
      exact .ret _ _
  | write addr sndBuf =>
    cases sndBuf with
    | none => cases empty
    | some bytes =>
      cases empty
      refine ⟨.error .inval, Script.runs_expand_iff.mpr ?_⟩
      apply Script.Runs.call (lock_free rfl)
      apply Script.Runs.call (transfer_ok (by simp [Bus.Transfer.len]) (by simp [Bus.Transfer.len]) _)
      apply Script.Runs.call (transfer_refused rfl _)
      apply Script.Runs.call (unlock_runs _)
      exact .ret _ _
  | rdsr | irr | irw => cases empty

/-- Chip select and the lock are released, whatever fails, except after a read or write of
no bytes on a port that is set up. -/
theorem releases_iff (port : Platform) (ctx : Ctx) (a : Access) :
    Releases port ctx a ↔ ¬(ctx = some true ∧ a.Empty) := by
  constructor
  · rintro releases ⟨rfl, empty⟩
    obtain ⟨ret, run⟩ := @empty_selected port a empty
    exact absurd (releases ret _ run) (by decide)
  · exact releases_of_filled

theorem empty_write_selected : ¬∀ port ctx a, Releases port ctx a := by
  intro releases
  obtain ⟨ret, run⟩ := @empty_selected .freertos (.write 0 (some [])) rfl
  exact absurd (releases _ _ _ ret _ run) (by decide)

end Qapp.Spi.Port
