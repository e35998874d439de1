import Qapp.Spi.Bus

/-!
# Transactions on the bus

The lock keeps header and data phase together, and one length in TRNS_LEN for each read,
as long as the transfers that are made outside of it stay clear.
-/

namespace Qapp.Spi.Bus
open ByteMem
open Script (perform Pool Moment)

/-! ## The protocol every call follows -/

inductive Phase
  | idle | locked | selected
  deriving DecidableEq

/-- Where a thread is, and the length that it has set for its next FREAD. -/
structure Mode where
  phase : Phase
  due : Option Nat

def Mode.step (m : Mode) : (op : Op) → op.Ans → Option Mode
  | .lock, _ => if m.phase = .idle then some ⟨.locked, m.due⟩ else none
  | .unlock, _ => if m.phase = .locked then some ⟨.idle, m.due⟩ else none
  | .transfer .nop, _ => if m.phase = .idle then some m else none
  | .transfer (.fread _), .ok _ | .transfer (.write _), .ok _ =>
    if m.phase = .locked then some ⟨.selected, m.due⟩ else none
  | .transfer (.fread _), .error _ | .transfer (.write _), .error _ =>
    if m.phase = .locked then some m else none
  | .transfer (.readData size _), _ =>
    if m.phase = .selected ∧ m.due = some (size * 2 ^ 16) then some ⟨.locked, none⟩ else none
  | .transfer (.writeData _), _ =>
    if m.phase = .selected then some ⟨.locked, m.due⟩ else none
  | .transfer .rdsr, _ | .transfer (.irr _), _ => if m.phase = .locked then some m else none
  | .transfer (.irw reg val), _ =>
    if m.phase = .locked then some ⟨.locked, if reg = trnsLenReg then some val else m.due⟩
    else none

/-- The lock is free. -/
def Mode.Idle (m : Mode) : Prop := m.phase = .idle

/-- The script takes the lock and releases it again, whatever is answered. -/
def Orderly {α : Type} (p : Calls α) : Prop :=
  ∀ m : Mode, m.Idle → p.Follows Mode.step (fun _ => Mode.Idle) m

section Orderly
variable {α β : Type}

theorem Orderly.ret (a : α) : Orderly (pure a : Calls α) := fun _ h => h

theorem Orderly.bind {p : Calls α} {f : α → Calls β} (h : Orderly p) (hf : ∀ a, Orderly (f a)) :
    Orderly (p >>= f) := fun m hm => (h m hm).bind fun a n hn => hf a n hn

theorem qcspiIRW_orderly (reg val : Nat) : Orderly (qcspiIRW reg val) := by
  rintro ⟨_, due⟩ rfl
  intro _
  exact ⟨_, rfl, fun _ => ⟨_, rfl, fun _ => ⟨_, rfl, rfl⟩⟩⟩

theorem qcspiIRR_orderly (reg : Nat) (regVal : Option Unit) : Orderly (qcspiIRR reg regVal) := by
  cases regVal with
  | none => exact .ret _
  | some _ =>
    rintro ⟨_, due⟩ rfl
    intro _
    exact ⟨_, rfl, fun _ => ⟨_, rfl, fun _ => ⟨_, rfl, rfl⟩⟩⟩

theorem qcspiRDSR_orderly (status : Option Unit) : Orderly (qcspiRDSR status) := by
  cases status with
  | none => exact .ret _
  | some _ =>
    rintro ⟨_, due⟩ rfl
    intro _
    exact ⟨_, rfl, fun _ => ⟨_, rfl, fun _ => ⟨_, rfl, rfl⟩⟩⟩

theorem waitReady_orderly (left : Nat) : Orderly (waitReady left) := by
  induction left with
  | zero => exact .ret _
  | succ left ih =>
    apply (qcspiRDSR_orderly _).bind
    rintro (_ | status)
    · dsimp only
      split
      · exact .ret _
      · exact ih
    · dsimp only
      split
      · exact .ret _
      · split
        · exact .ret _
        · exact ih

theorem qcspiInterrupt_orderly : Orderly qcspiInterrupt := by
  apply (qcspiIRR_orderly _ _).bind
  rintro (_ | config)
  · exact .ret _
  · dsimp only
    split
    · apply (qcspiIRR_orderly _ _).bind
      rintro (_ | config)
      · exact qcspiIRW_orderly _ _
      · dsimp only
        split
        · exact .ret _
        · exact qcspiIRW_orderly _ _
    · exact qcspiIRW_orderly _ _

theorem qcspiWrite_orderly (addr : Nat) (sndBuf : Option (List UInt8)) :
    Orderly (qcspiWrite addr sndBuf) := by
  cases sndBuf with
  | none => exact .ret _
  | some bytes =>
    simp only [qcspiWrite]
    split
    · exact .ret _
    · rintro ⟨_, due⟩ rfl
      intro _
      refine ⟨_, rfl, ?_⟩
      rintro (_ | _)
      · exact ⟨_, rfl, fun _ => ⟨_, rfl, rfl⟩⟩
      · refine ⟨_, rfl, ?_⟩
        rintro (_ | _)
        · exact ⟨_, rfl, fun _ => ⟨_, rfl, rfl⟩⟩
        · exact ⟨_, rfl, fun _ => ⟨_, rfl, waitReady_orderly _ _ rfl⟩⟩

theorem qcspiRead_orderly (size addr : Nat) (rcvBuf : Option Mem) :
    Orderly (qcspiRead size addr rcvBuf) := by
  cases rcvBuf with
  | none => exact .ret _
  | some buf =>
    simp only [qcspiRead]
    split
    · exact .ret _
    · rintro ⟨_, due⟩ rfl
      intro _
      refine ⟨_, rfl, fun _ => ⟨_, rfl, fun _ => ⟨_, rfl, fun _ => ⟨_, rfl, ?_⟩⟩⟩⟩
      rintro (_ | _)
      · exact ⟨_, rfl, fun _ => ⟨_, rfl, rfl⟩⟩
      · refine ⟨_, rfl, ?_⟩
        rintro ⟨_ | _, _⟩
        · exact ⟨⟨.locked, none⟩, if_pos ⟨rfl, rfl⟩, fun _ => ⟨_, rfl, rfl⟩⟩
        · exact ⟨⟨.locked, none⟩, if_pos ⟨rfl, rfl⟩, fun _ =>
            ⟨_, rfl, (waitReady_orderly maxInitTryTimes ⟨.idle, none⟩ rfl).bind fun _ _ h => h⟩⟩

theorem Orderly.expand {O : Type} {A : O → Type} {h : (op : O) → Calls (A op)}
    (each : ∀ op, Orderly (h op)) (p : Script O A α) : Orderly (p.expand h) :=
  fun _ hm => .expand hm (fun op n hn => each op n hn) p

theorem wordCall_orderly (op : WordOp) : Orderly (wordCall op) := by
  cases op with
  | read size addr rcvBuf => exact qcspiRead_orderly size addr (some rcvBuf)
  | write addr bytes => exact qcspiWrite_orderly addr (some bytes)
  | nop =>
    rintro ⟨_, due⟩ rfl
    intro _
    exact ⟨_, rfl, rfl⟩

theorem driver_orderly (c : DriverCall) : Orderly (driver c) := by
  cases c with
  | read size addr rcvBuf => exact qcspiRead_orderly size addr rcvBuf
  | write addr sndBuf => exact qcspiWrite_orderly addr sndBuf
  | readAddrAlign n addr buf => exact .expand wordCall_orderly (qcspiReadAddrAlign n addr buf)
  | writeAddrAlign n addr data => exact .expand wordCall_orderly (qcspiWriteAddrAlign n addr data)
  | interrupt => exact qcspiInterrupt_orderly
  | rdsr status => exact qcspiRDSR_orderly status
  | irr reg regVal => exact qcspiIRR_orderly reg regVal
  | irw reg val => exact qcspiIRW_orderly reg val

end Orderly

/-! ## What the modes say -/

section Due
variable {α : Type} {m n : Mode} {op : Op}

def ReadsData (size : Nat) (op : Op) : Prop := ∃ buf, op = .transfer (.readData size buf)

def SetsTrnsLen (op : Op) : Prop := ∃ val, op = .transfer (.irw trnsLenReg val)

/-- The script can come to a FREAD of so many bytes without another write to TRNS_LEN. -/
def Owes (size : Nat) (p : Calls α) : Prop :=
  p.Before (ReadsData size) fun op => SetsTrnsLen op ∨ ∃ n, ReadsData n op

theorem Mode.step_due {x : op.Ans} (h : m.step op x = some n)
    (other : ¬(SetsTrnsLen op ∨ ∃ k, ReadsData k op)) : n.due = m.due := by
  cases op with
  | lock | unlock =>
    simp only [Mode.step, Option.ite_none_right_eq_some] at h
    obtain ⟨_, ⟨⟩⟩ := h
    rfl
  | transfer t =>
    cases t with
    | nop | writeData | rdsr | irr =>
      simp only [Mode.step, Option.ite_none_right_eq_some] at h
      obtain ⟨_, ⟨⟩⟩ := h
      rfl
    | fread | write =>
      cases x <;> simp only [Mode.step, Option.ite_none_right_eq_some] at h <;>
        obtain ⟨_, ⟨⟩⟩ := h <;> rfl
    | readData size buf => exact absurd (.inr ⟨size, buf, rfl⟩) other
    | irw reg val =>
      have : reg ≠ trnsLenReg := by
        rintro rfl
        exact other (.inl ⟨val, rfl⟩)
      simp only [Mode.step, Option.ite_none_right_eq_some, this, if_false] at h
      obtain ⟨_, ⟨⟩⟩ := h
      rfl

theorem Owes.due {size : Nat} {p : Calls α} (h : Owes size p)
    (follows : p.Follows Mode.step (fun _ => Mode.Idle) m) : m.due = some (size * 2 ^ 16) := by
  induction p generalizing m with
  | ret a => cases h
  | call op next ih =>
    obtain ⟨buf, rfl⟩ | ⟨other, x, later⟩ := h
    · obtain ⟨n, allowed, _⟩ := follows (.error .io, buf)
      simp only [Mode.step] at allowed
      split at allowed
      next ready => exact ready.2
      next => cases allowed
    · obtain ⟨n, allowed, rest⟩ := follows x
      rw [← Mode.step_due allowed other]
      exact ih x later rest

end Due

/-! ## The lock and the modes -/

section Invariant
variable {ι α : Type} [DecidableEq ι]

/-- Who is not idle holds the lock, and is the one between header and data if there is one. -/
structure Locked (mode : ι → Mode) (s : Shared ι) : Prop where
  holder : ∀ i, (mode i).phase ≠ .idle ↔ s.holder = some i
  selected : ∀ i, (mode i).phase = .selected ↔ s.selected = some i

theorem Locked.change {mode : ι → Mode} {s t : Shared ι} {i : ι} {n : Mode} (h : Locked mode s)
    (holder : ∀ j, j ≠ i → (s.holder = some j ↔ t.holder = some j))
    (selected : ∀ j, j ≠ i → (s.selected = some j ↔ t.selected = some j))
    (mine : n.phase ≠ .idle ↔ t.holder = some i)
    (mine' : n.phase = .selected ↔ t.selected = some i) :
    Locked (Function.update mode i n) t := by
  constructor <;> intro j <;> by_cases same : j = i
  · subst same
    simpa using mine
  · rw [Function.update_of_ne same, h.holder, holder j same]
  · subst same
    simpa using mine'
  · rw [Function.update_of_ne same, h.selected, selected j same]

omit [DecidableEq ι] in
/-- Nobody else is selected. -/
theorem Locked.alone {mode : ι → Mode} {s : Shared ι} {i j : ι} (h : Locked mode s)
    (mine : s.holder = some i) (other : j ≠ i) : s.selected ≠ some j := by
  intro hj
  have busy : (mode j).phase ≠ .idle := by simp [(h.selected j).mpr hj]
  rw [h.holder, mine] at busy
  exact other (Option.some.inj busy).symm

theorem Locked.step {mode : ι → Mode} {s t : Shared ι} {i : ι} {op : Op} {x : op.Ans} {n : Mode}
    (h : Locked mode s) (allowed : (mode i).step op x = some n) (act : Act i s op x t) :
    Locked (Function.update mode i n) t := by
  cases act with
  | lock free =>
    simp only [Mode.step, Option.ite_none_right_eq_some] at allowed
    obtain ⟨idle, ⟨⟩⟩ := allowed
    have all (j : ι) : (mode j).phase = .idle := by
      apply Classical.byContradiction
      intro busy
      have := (h.holder j).mp busy
      rw [free] at this
      cases this
    apply h.change
    · intro j hj
      simp [free, Ne.symm hj]
    · simp
    · simp
    · have := h.selected i
      simpa [idle] using this
  | unlock =>
    simp only [Mode.step, Option.ite_none_right_eq_some] at allowed
    obtain ⟨locked, ⟨⟩⟩ := allowed
    have mine := (h.holder i).mp (by simp [locked])
    apply h.change
    · intro j hj
      simp [mine, Ne.symm hj]
    · simp
    · simp
    · have := h.selected i
      simpa [locked] using this
  | nop | freadFail | writeFail | rdsr | irr =>
    simp only [Mode.step, Option.ite_none_right_eq_some] at allowed
    obtain ⟨_, ⟨⟩⟩ := allowed
    rw [Function.update_eq_self]
    exact h
  | fread | write =>
    simp only [Mode.step, Option.ite_none_right_eq_some] at allowed
    obtain ⟨locked, ⟨⟩⟩ := allowed
    have mine := (h.holder i).mp (by simp [locked])
    apply h.change
    · intro _ _
      exact Iff.rfl
    · intro j hj
      simp [h.alone mine hj, Ne.symm hj]
    · simp [mine]
    · simp
  | readData | writeData =>
    simp only [Mode.step, Option.ite_none_right_eq_some] at allowed
    obtain ⟨ready, ⟨⟩⟩ := allowed
    have mine := (h.holder i).mp (by simp [ready])
    apply h.change
    · intro _ _
      exact Iff.rfl
    · intro j hj
      simp [h.alone mine hj]
    · simp [mine]
    · simp
  | trnsLen | irwKeeps =>
    simp only [Mode.step, Option.ite_none_right_eq_some] at allowed
    obtain ⟨locked, ⟨⟩⟩ := allowed
    have mine := (h.holder i).mp (by simp [locked])
    have unselected := h.selected i
    apply h.change
    · intro _ _
      exact Iff.rfl
    · intro _ _
      exact Iff.rfl
    · simp [mine]
    · simpa [locked] using unselected

omit [DecidableEq ι] in
theorem Act.trnsLen_cases {i : ι} {s t : Shared ι} {op : Op} {x : op.Ans} (h : Act i s op x t) :
    t.trnsLen = s.trnsLen ∨ ∃ val, op = .transfer (.irw trnsLenReg val) ∧ t.trnsLen = val := by
  cases h with
  | trnsLen val => exact .inr ⟨val, rfl, rfl⟩
  | _ => exact .inl rfl

/-! ## Runs -/

/-- A NOP comes between no header and its data phase. A write to TRNS_LEN does not change
the length another thread has set for a FREAD still to come, and it leaves its own there
when its thread comes to a FREAD. -/
def Clear (m : Moment ι Op Op.Ans α (Shared ι)) : Prop :=
  (m.op = .transfer .nop → m.before.state.selected = none) ∧
  ∀ val, m.op = .transfer (.irw trnsLenReg val) →
    (m.after.state.trnsLen ≠ m.before.state.trnsLen → ∀ i, i ≠ m.who →
      ∀ size, Owes size (m.before.thread i) → size * 2 ^ 16 = val) ∧
    ((∃ size, Owes size (m.after.thread m.who)) → m.after.state.trnsLen = val)

/-- The threads keep to the protocol, and every FREAD to come finds its length set. -/
structure Sound (p : Pool ι Op Op.Ans α (Shared ι)) : Prop where
  keeping : p.Keeping Mode.step (fun _ => Mode.Idle) Locked
  lengths : ∀ i size, Owes size (p.thread i) → p.state.trnsLen = size * 2 ^ 16

omit [DecidableEq ι] in
theorem Sound.start (program : ι → Script DriverCall DriverCall.Ans α) (trnsLen : Nat) :
    Sound (start program trnsLen) := by
  have orderly (i : ι) :
      ((program i).expand driver).Follows Mode.step (fun _ => Mode.Idle) ⟨.idle, none⟩ :=
    Orderly.expand driver_orderly (program i) ⟨.idle, none⟩ rfl
  constructor
  · refine ⟨fun _ => ⟨.idle, none⟩, orderly, ?_, ?_⟩ <;> intro i <;> simp [Bus.start]
  · intro i size owes
    have := owes.due (orderly i)
    cases this

theorem Sound.step {m : Moment ι Op Op.Ans α (Shared ι)} (happens : m.Happens Act)
    (clear : Clear m) (h : Sound m.before) : Sound m.after := by
  have act := happens.act
  refine ⟨h.keeping.step happens fun _ _ locked allowed => locked.step allowed act, ?_⟩
  obtain ⟨mode, follows, _⟩ := h.keeping
  obtain ⟨n, allowed, rest⟩ := happens.allowed (follows m.who)
  intro j size owes
  by_cases mine : j = m.who
  · subst mine
    have due := owes.due rest
    by_cases sets : SetsTrnsLen m.op ∨ ∃ k, ReadsData k m.op
    · have kept := clear.2
      cases happens with
      | @call p i op next x t now step =>
        obtain ⟨val, rfl⟩ | ⟨k, buf, rfl⟩ := sets
        · simp only [Mode.step, Option.ite_none_right_eq_some] at allowed
          obtain ⟨_, ⟨⟩⟩ := allowed
          exact ((kept val rfl).2 ⟨size, owes⟩).trans (Option.some.inj due)
        · -- the length is used up
          simp only [Mode.step, Option.ite_none_right_eq_some] at allowed
          obtain ⟨_, ⟨⟩⟩ := allowed
          cases due
    · obtain same | ⟨val, hop, _⟩ := act.trnsLen_cases
      · exact same.trans (h.lengths m.who size (happens.before owes sets))
      · exact absurd (.inl ⟨val, hop⟩) sets
  · rw [happens.others mine] at owes
    obtain same | ⟨val, hop, set⟩ := act.trnsLen_cases
    · exact same.trans (h.lengths j size owes)
    · by_cases same : m.after.state.trnsLen = m.before.state.trnsLen
      · exact same.trans (h.lengths j size owes)
      · exact set.trans ((clear.2 val hop).1 same j mine size owes).symm

end Invariant

end Qapp.Spi.Bus
