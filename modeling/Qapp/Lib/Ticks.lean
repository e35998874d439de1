import Mathlib.Algebra.Group.Nat.Defs
import Mathlib.Data.List.Basic

/-!
# Deadlines on a counter that wraps

A loop polls a state and a 32-bit tick counter until the state is done or the counter is
beyond a deadline. The deadline is a sum modulo 2^32 and compared in the order of numbers.
-/

namespace Ticks

/-- One round: the state that ends the loop, and the counter if it is read. -/
structure Poll where
  done : Bool
  tick : UInt32
  deriving DecidableEq

inductive PollEnd
  | done | timeUp
  deriving DecidableEq, Repr

/-- How the loop ends, and after how many rounds. -/
def pollUntil (expired : UInt32 → Bool) : List Poll → Option (PollEnd × Nat)
  | [] => none
  | p :: polls =>
    if p.done then some (.done, 0)
    else if expired p.tick then some (.timeUp, 0)
    else (pollUntil expired polls).map fun (how, n) => (how, n + 1)

/-- The time runs out only when `span` ticks have elapsed, modulo 2^32. -/
def EndsLate (start span : UInt32) (polls : List Poll) (outcome : Option (PollEnd × Nat)) : Prop :=
  ∀ pre p post, polls = pre ++ p :: post → outcome = some (.timeUp, pre.length) →
    span ≤ p.tick - start

/-- The time runs out at the first reading beyond `span`. -/
def EndsPromptly (start span : UInt32) (polls : List Poll) (outcome : Option (PollEnd × Nat)) :
    Prop :=
  ∀ pre p post, polls = pre ++ p :: post →
    (∀ q ∈ pre, q.done = false ∧ q.tick - start ≤ span) → p.done = false →
    span < p.tick - start → outcome = some (.timeUp, pre.length)

/-- Every round up to the first that is not `open` meets `Q`. -/
def Throughout (isOpen Q : Poll → Prop) (polls : List Poll) : Prop :=
  ∀ pre p post, polls = pre ++ p :: post → (∀ q ∈ pre, isOpen q) → Q p

/-- The counter wraps on the way to a reading exactly if it wraps on the way to the
deadline, as long as no reading is beyond `span`. -/
def SameSide (start span : UInt32) : List Poll → Prop :=
  Throughout (fun q => q.done = false ∧ q.tick - start ≤ span) fun p =>
    p.done = false → (start ≤ p.tick ↔ start.toNat + span.toNat < 2 ^ 32)

/-- The counter has wrapped at every reading, as long as none is beyond `span`. -/
def Wrapped (start span : UInt32) : List Poll → Prop :=
  Throughout (fun q => q.done = false ∧ q.tick - start < span) fun p =>
    p.done = false → p.tick < start

variable {start span : UInt32} {expired : UInt32 → Bool} {p : Poll} {polls : List Poll}

/-! ## One reading -/

/-- The order of numbers tells what has elapsed on one side only. -/
theorem beyond_iff (start span now : UInt32) : (start + span < now ↔ span < now - start) ↔
    (start ≤ now ↔ start.toNat + span.toNat < 2 ^ 32) := by
  have := start.toNat_lt
  have := span.toNat_lt
  have := now.toNat_lt
  rw [UInt32.lt_iff_toNat_lt, UInt32.lt_iff_toNat_lt, UInt32.le_iff_toNat_le, UInt32.toNat_add,
    UInt32.toNat_sub]
  omega

theorem reached_iff (start span now : UInt32) : (start + span ≤ now → span ≤ now - start) ↔
    (start.toNat + span.toNat < 2 ^ 32 ∨ now < start) := by
  have := start.toNat_lt
  have := span.toNat_lt
  have := now.toNat_lt
  rw [UInt32.lt_iff_toNat_lt, UInt32.le_iff_toNat_le, UInt32.le_iff_toNat_le, UInt32.toNat_add,
    UInt32.toNat_sub]
  omega

/-- Who gives up without being beyond the span is not even at its end. -/
theorem early_of_within {now : UInt32} (up : start + span < now) (within : ¬span < now - start) :
    ¬span ≤ now - start := by
  have := start.toNat_lt
  have := span.toNat_lt
  have := now.toNat_lt
  rw [UInt32.lt_iff_toNat_lt, UInt32.toNat_add] at up
  rw [UInt32.lt_iff_toNat_lt, UInt32.toNat_sub] at within
  rw [UInt32.le_iff_toNat_le, UInt32.toNat_sub]
  omega

theorem elapsed_before_wrapped {now : UInt32} (wraps : ¬start.toNat + span.toNat < 2 ^ 32)
    (before : now < start + span) : now - start < span := by
  have := start.toNat_lt
  have := span.toNat_lt
  have := now.toNat_lt
  rw [UInt32.lt_iff_toNat_lt, UInt32.toNat_add] at before
  rw [UInt32.lt_iff_toNat_lt, UInt32.toNat_sub]
  omega

/-! ## A round more -/

/-- The places in a list, and the first one apart. -/
theorem forall_split_cons {α : Type} {Q : List α → α → Prop} {a : α} {l : List α} :
    (∀ pre x post, a :: l = pre ++ x :: post → Q pre x) ↔
      Q [] a ∧ ∀ pre x post, l = pre ++ x :: post → Q (a :: pre) x := by
  constructor
  · intro all
    constructor
    · exact all [] a l rfl
    · intro pre x post eq
      exact all (a :: pre) x post (congrArg (a :: ·) eq)
  · rintro ⟨first, later⟩ pre x post eq
    cases pre with
    | nil =>
      injection eq with same
      rw [← same]
      exact first
    | cons b pre =>
      injection eq with same rest
      rw [← same]
      exact later pre x post rest

theorem pollUntil_next (waiting : p.done = false) (more : expired p.tick = false) (n : Nat) :
    pollUntil expired (p :: polls) = some (.timeUp, n + 1) ↔
      pollUntil expired polls = some (.timeUp, n) := by
  rw [pollUntil, waiting, more]
  cases pollUntil expired polls with
  | none => simp
  | some outcome =>
    obtain ⟨how, m⟩ := outcome
    simp

theorem endsLate_cons : EndsLate start span (p :: polls) (pollUntil expired (p :: polls)) ↔
    p.done = true ∨ if expired p.tick then span ≤ p.tick - start
      else EndsLate start span polls (pollUntil expired polls) := by
  unfold EndsLate
  rw [forall_split_cons]
  cases done : p.done with
  | true => simp [pollUntil, done]
  | false =>
    cases up : expired p.tick with
    | true => simp [pollUntil, done, up]
    | false =>
      have first : pollUntil expired (p :: polls) ≠ some (.timeUp, 0) := by
        rw [pollUntil, done, up]
        cases pollUntil expired polls <;> simp
      simp [first, pollUntil_next done up]

theorem throughout_cons {isOpen Q : Poll → Prop} : Throughout isOpen Q (p :: polls) ↔
    Q p ∧ (isOpen p → Throughout isOpen Q polls) := by
  unfold Throughout
  rw [forall_split_cons]
  constructor
  · rintro ⟨first, later⟩
    constructor
    · exact first nofun
    · intro open_ pre x post eq all
      exact later pre x post eq (List.forall_mem_cons.mpr ⟨open_, all⟩)
  · rintro ⟨first, later⟩
    constructor
    · exact fun _ => first
    · intro pre x post eq all
      exact later (all p (.head _)) pre x post eq fun q mem => all q (.tail _ mem)

/-- A round that goes on, in time. -/
theorem endsPromptly_next (waiting : p.done = false) (more : expired p.tick = false)
    (inTime : p.tick - start ≤ span) :
    EndsPromptly start span (p :: polls) (pollUntil expired (p :: polls)) ↔
      EndsPromptly start span polls (pollUntil expired polls) := by
  unfold EndsPromptly
  rw [forall_split_cons]
  constructor
  · rintro ⟨-, later⟩ pre x post eq all undone beyond
    have all := List.forall_mem_cons.mpr ⟨⟨waiting, inTime⟩, all⟩
    have ended := later pre x post eq all undone beyond
    exact (pollUntil_next waiting more _).mp ended
  · intro prompt
    constructor
    · intro _ _ beyond
      exact absurd inTime (UInt32.not_le.mpr beyond)
    · intro pre x post eq all undone beyond
      have ended := prompt pre x post eq (fun q mem => all q (.tail _ mem)) undone beyond
      exact (pollUntil_next waiting more _).mpr ended

/-- The last round, beyond the span. -/
theorem endsPromptly_last (waiting : p.done = false) (up : expired p.tick = true)
    (beyond : span < p.tick - start) :
    EndsPromptly start span (p :: polls) (pollUntil expired (p :: polls)) := by
  unfold EndsPromptly
  rw [forall_split_cons]
  constructor
  · intro _ _ _
    simp [pollUntil, waiting, up]
  · intro pre x post _ all
    exact absurd (all p (.head _)).2 (UInt32.not_le.mpr beyond)

theorem endsPromptly_done (done : p.done = true) :
    EndsPromptly start span (p :: polls) (pollUntil expired (p :: polls)) := by
  unfold EndsPromptly
  rw [forall_split_cons]
  constructor
  · intro _ undone
    exact absurd (done.symm.trans undone) nofun
  · intro pre x post _ all
    exact absurd (done.symm.trans (all p (.head _)).1) nofun

/-! ## Whole loops -/

/-- A loop that gives up beyond `start + span` is in time exactly if the readings are on the
same side of the wrap as the deadline. -/
theorem beyond_timely_iff (start span : UInt32) (polls : List Poll) :
    EndsLate start span polls (pollUntil (fun now => start + span < now) polls) ∧
      EndsPromptly start span polls (pollUntil (fun now => start + span < now) polls) ↔
    SameSide start span polls := by
  induction polls with
  | nil => simp [EndsLate, EndsPromptly, SameSide, Throughout]
  | cons p polls ih =>
    rw [SameSide, throughout_cons, endsLate_cons]
    cases done : p.done with
    | true => simp [endsPromptly_done done]
    | false =>
      have side := beyond_iff start span p.tick
      by_cases up : start + span < p.tick
      · by_cases beyond : span < p.tick - start
        · have same := side.mp (iff_of_true up beyond)
          have last := @endsPromptly_last start span (fun now => start + span < now) p polls done
            (decide_eq_true up) beyond
          simp [up, last, same, UInt32.le_of_lt beyond, UInt32.not_le.mpr beyond]
        · have other : ¬(start ≤ p.tick ↔ start.toNat + span.toNat < 2 ^ 32) := fun same =>
            beyond ((side.mpr same).mp up)
          have early := early_of_within up beyond
          constructor
          · rintro ⟨late, -⟩
            simp [up, early] at late
          · intro same
            exact absurd (same.1 rfl) other
      · by_cases beyond : span < p.tick - start
        · have other : ¬(start ≤ p.tick ↔ start.toNat + span.toNat < 2 ^ 32) := fun same =>
            up ((side.mpr same).mpr beyond)
          have late : ¬EndsPromptly start span (p :: polls)
              (pollUntil (fun now => start + span < now) (p :: polls)) := by
            intro prompt
            have ended := prompt [] p polls rfl nofun done beyond
            rw [pollUntil, done, decide_eq_false up] at ended
            cases rest : pollUntil (fun now => decide (start + span < now)) polls <;>
              rw [rest] at ended <;> simp at ended
          constructor
          · intro timely
            exact absurd timely.2 late
          · intro same
            exact absurd (same.1 rfl) other
        · have same := side.mp (iff_of_false up beyond)
          have inTime : p.tick - start ≤ span := UInt32.not_lt.mp beyond
          have next := @endsPromptly_next start span (fun now => start + span < now) p polls done
            (decide_eq_false up) inTime
          rw [next]
          simp only [up, decide_false, Bool.false_eq_true, if_false, false_or, same, inTime,
            and_self, true_implies, implies_true, true_and]
          exact ih

/-- A loop that gives up from `start + span` on is never early exactly if the deadline has
not wrapped, or every reading has. -/
theorem reached_late_iff (start span : UInt32) (polls : List Poll) :
    EndsLate start span polls (pollUntil (fun now => start + span ≤ now) polls) ↔
      start.toNat + span.toNat < 2 ^ 32 ∨ Wrapped start span polls := by
  induction polls with
  | nil => simp [EndsLate, Wrapped, Throughout]
  | cons p polls ih =>
    rw [Wrapped, throughout_cons, endsLate_cons]
    cases done : p.done with
    | true => simp
    | false =>
      have side := reached_iff start span p.tick
      by_cases straight : start.toNat + span.toNat < 2 ^ 32
      · have fine := side.mpr (.inl straight)
        have rest := ih.mpr (.inl straight)
        rw [iff_true_right (.inl straight)]
        by_cases up : start + span ≤ p.tick
        · simp [up, fine up]
        · simp [up, rest]
      · rw [or_iff_right straight] at ih side ⊢
        simp only [Bool.false_eq_true, false_or, true_implies, true_and, decide_eq_true_eq]
        by_cases up : start + span ≤ p.tick
        · rw [if_pos up]
          constructor
          · intro late
            exact ⟨side.mp fun _ => late, fun early => absurd late (UInt32.not_le.mpr early)⟩
          · rintro ⟨wrapped, -⟩
            exact side.mpr wrapped up
        · have wrapped := side.mp fun h => absurd h up
          rw [if_neg up, ih]
          have early := elapsed_before_wrapped straight (UInt32.not_le.mp up)
          exact ⟨fun rest => ⟨wrapped, fun _ => rest⟩, fun h => h.2 early⟩

end Ticks
