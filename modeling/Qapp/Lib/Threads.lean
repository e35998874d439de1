import Mathlib.Logic.Function.Basic
import Qapp.Lib.Script

/-!
# Threads

A pool has one script for each thread and a state they share. A run is any order of
their calls, kept as the list of its moments.
-/

namespace Script

structure Pool (ι Op : Type) (Ans : Op → Type) (α σ : Type) where
  thread : ι → Script Op Ans α
  state : σ

/-- One call of one thread. -/
structure Moment (ι Op : Type) (Ans : Op → Type) (α σ : Type) where
  before : Pool ι Op Ans α σ
  who : ι
  op : Op
  answer : Ans op
  after : Pool ι Op Ans α σ

section Pool
variable {ι Op : Type} [DecidableEq ι] {Ans : Op → Type} {α σ μ : Type}
  {R : ι → σ → (op : Op) → Ans op → σ → Prop}

def Pool.set (p : Pool ι Op Ans α σ) (i : ι) (rest : Script Op Ans α) (s : σ) :
    Pool ι Op Ans α σ :=
  ⟨Function.update p.thread i rest, s⟩

@[simp] theorem Pool.set_state (p : Pool ι Op Ans α σ) (i : ι) (rest : Script Op Ans α) (s : σ) :
    (p.set i rest s).state = s := rfl

@[simp] theorem Pool.set_same (p : Pool ι Op Ans α σ) (i : ι) (rest : Script Op Ans α) (s : σ) :
    (p.set i rest s).thread i = rest := by simp [Pool.set]

theorem Pool.set_other (p : Pool ι Op Ans α σ) {i j : ι} (rest : Script Op Ans α) (s : σ)
    (h : j ≠ i) : (p.set i rest s).thread j = p.thread j := by simp [Pool.set, h]

/-- `R i` says what a call of thread `i` may do and answer. -/
inductive Moment.Happens (R : ι → σ → (op : Op) → Ans op → σ → Prop) :
    Moment ι Op Ans α σ → Prop where
  | call {p : Pool ι Op Ans α σ} {i : ι} {op : Op} {next : Ans op → Script Op Ans α} {x : Ans op}
      {t : σ} (now : p.thread i = .call op next) (step : R i p.state op x t) :
      Happens R ⟨p, i, op, x, p.set i (next x) t⟩

inductive Pool.Run (R : ι → σ → (op : Op) → Ans op → σ → Prop) :
    Pool ι Op Ans α σ → List (Moment ι Op Ans α σ) → Prop where
  | stop (p : Pool ι Op Ans α σ) : Run R p []
  | next {m : Moment ι Op Ans α σ} {moments : List (Moment ι Op Ans α σ)} (happens : m.Happens R)
      (rest : Run R m.after moments) : Run R m.before (m :: moments)

/-- An invariant kept by the moments that meet `Ok`. -/
theorem Pool.Run.invariant {p : Pool ι Op Ans α σ} {moments : List (Moment ι Op Ans α σ)}
    {I : Pool ι Op Ans α σ → Prop} {Ok : Moment ι Op Ans α σ → Prop} (run : p.Run R moments)
    (start : I p) (ok : ∀ m ∈ moments, Ok m)
    (each : ∀ m, m.Happens R → Ok m → I m.before → I m.after) :
    ∀ m ∈ moments, m.Happens R ∧ I m.before := by
  induction run with
  | stop p =>
    intro m hm
    cases hm
  | @next m moments happens _ ih =>
    intro n hn
    cases hn with
    | head => exact ⟨happens, start⟩
    | tail _ later =>
      have here := each m happens (ok m (List.mem_cons_self ..)) start
      exact ih here (fun k hk => ok k (List.mem_cons_of_mem _ hk)) n later

/-- A run of moments that meet `Ok` comes to one that meets `Goal`. -/
def Pool.Reaches (R : ι → σ → (op : Op) → Ans op → σ → Prop)
    (Ok Goal : Moment ι Op Ans α σ → Prop) (p : Pool ι Op Ans α σ) : Prop :=
  ∃ moments, p.Run R moments ∧ (∀ m ∈ moments, Ok m) ∧ ∃ m ∈ moments, Goal m

section Reaches
variable {Ok Goal : Moment ι Op Ans α σ → Prop} {p : Pool ι Op Ans α σ} {op : Op}
  {next : Ans op → Script Op Ans α} {x : Ans op} {t : σ}

theorem Pool.Reaches.call (i : ι) (now : p.thread i = .call op next) (step : R i p.state op x t)
    (ok : Ok ⟨p, i, op, x, p.set i (next x) t⟩) (rest : (p.set i (next x) t).Reaches R Ok Goal) :
    p.Reaches R Ok Goal := by
  obtain ⟨moments, run, oks, m, hm, goal⟩ := rest
  refine ⟨_, .next (.call now step) run, ?_, m, .tail _ hm, goal⟩
  exact List.forall_mem_cons.mpr ⟨ok, oks⟩

theorem Pool.Reaches.here (i : ι) (now : p.thread i = .call op next) (step : R i p.state op x t)
    (ok : Ok ⟨p, i, op, x, p.set i (next x) t⟩) (goal : Goal ⟨p, i, op, x, p.set i (next x) t⟩) :
    p.Reaches R Ok Goal := by
  refine ⟨_, .next (.call now step) (.stop _), ?_, _, .head _, goal⟩
  exact List.forall_mem_cons.mpr ⟨ok, nofun⟩

end Reaches

/-! ## Protocols

Every thread keeps to a protocol, and the modes they are in fit the shared state. -/

/-- The threads are in modes that `J` allows. -/
def Pool.Keeping (δ : μ → (op : Op) → Ans op → Option μ) (final : α → μ → Prop)
    (J : (ι → μ) → σ → Prop) (p : Pool ι Op Ans α σ) : Prop :=
  ∃ mode : ι → μ, (∀ i, (p.thread i).Follows δ final (mode i)) ∧ J mode p.state

theorem Moment.Happens.act {m : Moment ι Op Ans α σ} (h : m.Happens R) :
    R m.who m.before.state m.op m.answer m.after.state := by
  cases h with
  | call now step => exact step

/-- What a moment's call leads to in a mode of the protocol. -/
theorem Moment.Happens.allowed {δ : μ → (op : Op) → Ans op → Option μ} {final : α → μ → Prop}
    {m : Moment ι Op Ans α σ} {n : μ} (h : m.Happens R)
    (follows : (m.before.thread m.who).Follows δ final n) :
    ∃ n', δ n m.op m.answer = some n' ∧ (m.after.thread m.who).Follows δ final n' := by
  cases h with
  | @call p i op next x t now step =>
    simp only [now] at follows
    obtain ⟨n', allowed, rest⟩ := follows x
    exact ⟨n', allowed, by simpa using rest⟩

theorem Moment.Happens.others {m : Moment ι Op Ans α σ} (h : m.Happens R) {j : ι}
    (other : j ≠ m.who) : m.after.thread j = m.before.thread j := by
  cases h with
  | call now step => exact Pool.set_other _ _ _ other

theorem Moment.Happens.before {m : Moment ι Op Ans α σ} {goal stop : Op → Prop}
    (h : m.Happens R) (later : (m.after.thread m.who).Before goal stop) (pass : ¬stop m.op) :
    (m.before.thread m.who).Before goal stop := by
  cases h with
  | @call p i op next x t now step =>
    rw [now]
    exact .inr ⟨pass, x, by simpa using later⟩

theorem Pool.Keeping.step {δ : μ → (op : Op) → Ans op → Option μ} {final : α → μ → Prop}
    {J : (ι → μ) → σ → Prop} {m : Moment ι Op Ans α σ} (h : m.before.Keeping δ final J)
    (happens : m.Happens R)
    (each : ∀ mode n, J mode m.before.state → δ (mode m.who) m.op m.answer = some n →
      J (Function.update mode m.who n) m.after.state) : m.after.Keeping δ final J := by
  obtain ⟨mode, follows, fits⟩ := h
  obtain ⟨n, allowed, rest⟩ := happens.allowed (follows m.who)
  refine ⟨Function.update mode m.who n, fun j => ?_, each mode n fits allowed⟩
  by_cases same : j = m.who
  · subst same
    simpa using rest
  · rw [happens.others same, Function.update_of_ne same]
    exact follows j

end Pool

end Script
