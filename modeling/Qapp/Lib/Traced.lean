import Mathlib.Logic.Relation
import Mathlib.Tactic.Common

/-!
# Stateful code that leaves a trace

An action reads and changes a state, may stop with an error code that keeps the
state it had reached, and emits events. `Sound` says that an action only ever
moves along a step relation on a state and its history, so what every step
preserves holds after any piece of code, whatever it returned.
-/

namespace Traced

structure Out (σ ω ε α : Type) where
  res : Except ε α
  state : σ
  trace : List ω

def Act (σ ω ε α : Type) : Type := σ → Out σ ω ε α

variable {σ ω ε α β : Type}

/-- What is left to do after an outcome. An error skips it. -/
def Out.andThen (o : Out σ ω ε α) (f : α → Act σ ω ε β) : Out σ ω ε β :=
  match o.res with
  | .ok a => ⟨(f a o.state).res, (f a o.state).state, o.trace ++ (f a o.state).trace⟩
  | .error e => ⟨.error e, o.state, o.trace⟩

namespace Act

instance : Monad (Act σ ω ε) where
  pure a := fun s => ⟨.ok a, s, []⟩
  bind m f := fun s => (m s).andThen f

def fail (e : ε) : Act σ ω ε α := fun s => ⟨.error e, s, []⟩

def read : Act σ ω ε σ := fun s => ⟨.ok s, s, []⟩

def update (f : σ → σ) : Act σ ω ε Unit := fun s => ⟨.ok (), f s, []⟩

def emit (w : ω) : Act σ ω ε Unit := fun s => ⟨.ok (), s, [w]⟩

/-- Goes on after an error, with the result in hand. -/
def attempt (m : Act σ ω ε α) : Act σ ω ε (Except ε α) :=
  fun s => ⟨.ok (m s).res, (m s).state, (m s).trace⟩

/-- Replaces the error code. -/
def orFail (m : Act σ ω ε α) (e : ε) : Act σ ω ε α := fun s =>
  ⟨match (m s).res with
    | .ok a => .ok a
    | .error _ => .error e, (m s).state, (m s).trace⟩

/-- Runs `f` before an error leaves. -/
def cleanUp (m : Act σ ω ε α) (f : Act σ ω ε Unit) : Act σ ω ε α := fun s =>
  match (m s).res with
  | .ok a => ⟨.ok a, (m s).state, (m s).trace⟩
  | .error e => ⟨.error e, (f (m s).state).state, (m s).trace ++ (f (m s).state).trace⟩

/-- Runs `m` only if `c` holds. -/
def when (c : Prop) [Decidable c] (m : Act σ ω ε Unit) : Act σ ω ε Unit :=
  if c then m else Pure.pure ()

@[simp] theorem pure_run (a : α) (s : σ) :
    (Pure.pure a : Act σ ω ε α) s = ⟨.ok a, s, []⟩ := rfl

@[simp] theorem fail_run (e : ε) (s : σ) : (fail e : Act σ ω ε α) s = ⟨.error e, s, []⟩ := rfl

@[simp] theorem read_run (s : σ) : (read : Act σ ω ε σ) s = ⟨.ok s, s, []⟩ := rfl

@[simp] theorem update_run (f : σ → σ) (s : σ) :
    (update f : Act σ ω ε Unit) s = ⟨.ok (), f s, []⟩ := rfl

@[simp] theorem emit_run (w : ω) (s : σ) :
    (emit w : Act σ ω ε Unit) s = ⟨.ok (), s, [w]⟩ := rfl

@[simp] theorem bind_run (m : Act σ ω ε α) (f : α → Act σ ω ε β) (s : σ) :
    (m >>= f) s = (m s).andThen f := rfl

@[simp] theorem andThen_ok (a : α) (s : σ) (t : List ω) (f : α → Act σ ω ε β) :
    (Out.mk (.ok a) s t : Out σ ω ε α).andThen f =
      ⟨(f a s).res, (f a s).state, t ++ (f a s).trace⟩ := rfl

@[simp] theorem andThen_error (e : ε) (s : σ) (t : List ω) (f : α → Act σ ω ε β) :
    (Out.mk (.error e) s t : Out σ ω ε α).andThen f = ⟨.error e, s, t⟩ := rfl

/-- A first part that succeeds without a trace. -/
theorem bind_ok {m : Act σ ω ε α} {a : α} {s t : σ} (run : m s = ⟨.ok a, t, []⟩)
    (f : α → Act σ ω ε β) : (m >>= f) s = f a t := by
  rw [bind_run, run]
  rfl

theorem bind_assoc {γ : Type} (m : Act σ ω ε α) (f : α → Act σ ω ε β) (g : β → Act σ ω ε γ) :
    (m >>= f) >>= g = m >>= fun a => f a >>= g := by
  funext s
  simp only [bind_run]
  rcases m s with ⟨_ | a, t, l⟩
  · rfl
  · simp only [andThen_ok, bind_run]
    rcases f a t with ⟨_ | b, u, k⟩
    · rfl
    · simp only [Out.andThen, List.append_assoc]

theorem bind_pure (m : Act σ ω ε α) : m >>= Pure.pure = m := by
  funext s
  simp only [bind_run]
  rcases m s with ⟨_ | a, t, l⟩
  · rfl
  · simp only [andThen_ok, pure_run, List.append_nil]

/-- What goes on after an outcome succeeds only if both parts do. -/
theorem andThen_res_ok {o : Out σ ω ε α} {f : α → Act σ ω ε β} {b : β}
    (ok : (o.andThen f).res = .ok b) : ∃ a, o.res = .ok a ∧ (f a o.state).res = .ok b ∧
      (o.andThen f).state = (f a o.state).state := by
  obtain ⟨res, s, t⟩ := o
  cases res with
  | ok a => exact ⟨a, rfl, ok, rfl⟩
  | error e => cases ok

/-- What a first part emits stays in the trace. -/
theorem mem_trace_bind {f : α → Act σ ω ε β} {m : Act σ ω ε α} {w : ω} {s : σ}
    (mem : w ∈ (m s).trace) : w ∈ ((m >>= f) s).trace := by
  rw [bind_run, Out.andThen]
  cases (m s).res with
  | ok a => exact List.mem_append_left _ mem
  | error e => exact mem

theorem orFail_ok {m : Act σ ω ε α} {a : α} {s t : σ} {l : List ω} (run : m s = ⟨.ok a, t, l⟩)
    (e : ε) : m.orFail e s = ⟨.ok a, t, l⟩ := by
  rw [orFail, run]

theorem orFail_error {m : Act σ ω ε α} {e : ε} {s t : σ} {l : List ω}
    (run : m s = ⟨.error e, t, l⟩) (e' : ε) : m.orFail e' s = ⟨.error e', t, l⟩ := by
  rw [orFail, run]

theorem attempt_bind_run {m : Act σ ω ε α} {r : Except ε α} {s t : σ} {l : List ω}
    (run : m s = ⟨r, t, l⟩) (f : Except ε α → Act σ ω ε β) :
    (m.attempt >>= f) s = ⟨(f r t).res, (f r t).state, l ++ (f r t).trace⟩ := by
  rw [bind_run, attempt, run]
  rfl

/-- One part after another. -/
theorem bind_then {m : Act σ ω ε α} {a : α} {f : α → Act σ ω ε β} {r : Except ε β} {s t u : σ}
    {l k : List ω} (first : m s = ⟨.ok a, t, l⟩) (rest : f a t = ⟨r, u, k⟩) :
    (m >>= f) s = ⟨r, u, l ++ k⟩ := by
  rw [bind_run, first, andThen_ok, rest]

theorem attempt_then {m : Act σ ω ε α} {a : Except ε α} {f : Except ε α → Act σ ω ε β}
    {r : Except ε β} {s t u : σ} {l k : List ω} (first : m s = ⟨a, t, l⟩)
    (rest : f a t = ⟨r, u, k⟩) : (m.attempt >>= f) s = ⟨r, u, l ++ k⟩ := by
  rw [attempt_bind_run first, rest]

theorem cleanUp_ok {m : Act σ ω ε α} {a : α} {s t : σ} {l : List ω} (run : m s = ⟨.ok a, t, l⟩)
    (f : Act σ ω ε Unit) : m.cleanUp f s = ⟨.ok a, t, l⟩ := by
  rw [cleanUp, run]

theorem cleanUp_error {m : Act σ ω ε α} {e : ε} {s t u : σ} {l k : List ω} {f : Act σ ω ε Unit}
    (run : m s = ⟨.error e, t, l⟩) (after : f t = ⟨.ok (), u, k⟩) :
    m.cleanUp f s = ⟨.error e, u, l ++ k⟩ := by
  rw [cleanUp, run]
  simp only [after]

theorem when_pos {c : Prop} [Decidable c] (h : c) (m : Act σ ω ε Unit) : when c m = m :=
  if_pos h

theorem when_neg {c : Prop} [Decidable c] (h : ¬c) (m : Act σ ω ε Unit) :
    when c m = Pure.pure () := if_neg h

theorem ite_run (c : Prop) [Decidable c] (m k : Act σ ω ε α) (s : σ) :
    (if c then m else k) s = if c then m s else k s := by
  split <;> rfl

end Act

/-- A state and everything emitted so far. -/
abbrev Config (σ ω : Type) := σ × List ω

open Relation (ReflTransGen)

/-- From every `P`, running `m` is a sequence of `R` steps that ends in `Q`. -/
def Sound (R : Config σ ω → Config σ ω → Prop) (P : σ → List ω → Prop) (m : Act σ ω ε α)
    (Q : Except ε α → σ → List ω → Prop) : Prop :=
  ∀ s h, P s h → ReflTransGen R (s, h) ((m s).state, h ++ (m s).trace) ∧
    Q (m s).res (m s).state (h ++ (m s).trace)

variable {R : Config σ ω → Config σ ω → Prop} {P P' : σ → List ω → Prop}
  {Q Q' : Except ε α → σ → List ω → Prop} {m : Act σ ω ε α}

namespace Sound

theorem weaken (h : Sound R P m Q) (pre : ∀ s l, P' s l → P s l)
    (post : ∀ r s l, Q r s l → Q' r s l) : Sound R P' m Q' := by
  intro s l hp
  obtain ⟨run, hq⟩ := h s l (pre s l hp)
  exact ⟨run, post _ _ _ hq⟩

theorem post (h : Sound R P m Q) (imp : ∀ r s l, Q r s l → Q' r s l) : Sound R P m Q' :=
  h.weaken (fun _ _ hp => hp) imp

theorem pre (h : Sound R P m Q) (imp : ∀ s l, P' s l → P s l) : Sound R P' m Q :=
  h.weaken imp fun _ _ _ hq => hq

theorem pure (a : α) (h : ∀ s l, P s l → Q (.ok a) s l) :
    Sound R P (Pure.pure a : Act σ ω ε α) Q := by
  intro s l hp
  simp only [Act.pure_run, List.append_nil]
  exact ⟨.refl, h s l hp⟩

theorem fail (e : ε) (h : ∀ s l, P s l → Q (.error e) s l) :
    Sound R P (Act.fail e : Act σ ω ε α) Q := by
  intro s l hp
  simp only [Act.fail_run, List.append_nil]
  exact ⟨.refl, h s l hp⟩

theorem read {Q : Except ε σ → σ → List ω → Prop} (h : ∀ s l, P s l → Q (.ok s) s l) :
    Sound R P (Act.read : Act σ ω ε σ) Q := by
  intro s l hp
  simp only [Act.read_run, List.append_nil]
  exact ⟨.refl, h s l hp⟩

theorem update {f : σ → σ} {Q : Except ε Unit → σ → List ω → Prop}
    (step : ∀ s l, P s l → ReflTransGen R (s, l) (f s, l))
    (h : ∀ s l, P s l → Q (.ok ()) (f s) l) : Sound R P (Act.update f : Act σ ω ε Unit) Q := by
  intro s l hp
  simp only [Act.update_run, List.append_nil]
  exact ⟨step s l hp, h s l hp⟩

theorem emit {w : ω} {Q : Except ε Unit → σ → List ω → Prop}
    (step : ∀ s l, P s l → ReflTransGen R (s, l) (s, l ++ [w]))
    (h : ∀ s l, P s l → Q (.ok ()) s (l ++ [w])) : Sound R P (Act.emit w : Act σ ω ε Unit) Q := by
  intro s l hp
  simp only [Act.emit_run]
  exact ⟨step s l hp, h s l hp⟩

/-- Sequencing: the rest starts from what the first part left. -/
theorem bind {f : α → Act σ ω ε β} {Q : Except ε β → σ → List ω → Prop}
    {M : α → σ → List ω → Prop}
    (first : Sound R P m fun r s l => match r with
      | .ok a => M a s l
      | .error e => Q (.error e) s l)
    (rest : ∀ a, Sound R (M a) (f a) Q) : Sound R P (m >>= f) Q := by
  intro s l hp
  obtain ⟨run, hm⟩ := first s l hp
  rw [Act.bind_run]
  cases hr : (m s).res with
  | ok a =>
    rw [hr] at hm
    obtain ⟨run', hq⟩ := rest a _ _ hm
    simp only [Out.andThen, hr, ← List.append_assoc]
    exact ⟨run.trans run', hq⟩
  | error e =>
    rw [hr] at hm
    simp only [Out.andThen, hr]
    exact ⟨run, hm⟩

/-- Sequencing from what is known of the first part. -/
theorem andThen {K : Except ε α → σ → List ω → Prop} {f : α → Act σ ω ε β}
    {Q : Except ε β → σ → List ω → Prop} (first : Sound R P m K)
    (err : ∀ e s l, K (.error e) s l → Q (.error e) s l)
    (rest : ∀ a, Sound R (fun s l => K (.ok a) s l) (f a) Q) : Sound R P (m >>= f) Q := by
  refine bind (M := fun a s l => K (.ok a) s l) (first.post ?_) rest
  intro r s l h
  cases r with
  | ok a => exact h
  | error e => exact err e s l h

theorem attempt {Q : Except ε (Except ε α) → σ → List ω → Prop}
    (h : Sound R P m fun r s l => Q (.ok r) s l) : Sound R P m.attempt Q := h

/-- After reading the state it is known. -/
theorem read_bind {f : σ → Act σ ω ε β} {Q : Except ε β → σ → List ω → Prop}
    (rest : ∀ a, Sound R (fun s l => s = a ∧ P s l) (f a) Q) :
    Sound R P (Act.read >>= f) Q :=
  bind (M := fun a s l => s = a ∧ P s l) (read fun _ _ hp => ⟨rfl, hp⟩) rest

/-- Going on after an attempt, whatever it came to. -/
theorem attempt_bind {f : Except ε α → Act σ ω ε β} {Q : Except ε β → σ → List ω → Prop}
    (first : Sound R P m Q') (rest : ∀ r, Sound R (Q' r) (f r) Q) :
    Sound R P (m.attempt >>= f) Q := by
  refine bind (M := Q') (attempt first) rest

theorem orFail {e : ε} {Q : Except ε α → σ → List ω → Prop}
    (h : Sound R P m fun r s l => match r with
      | .ok a => Q (.ok a) s l
      | .error _ => Q (.error e) s l) : Sound R P (m.orFail e) Q := by
  intro s l hp
  obtain ⟨run, hq⟩ := h s l hp
  refine ⟨run, ?_⟩
  simp only [Act.orFail]
  cases hr : (m s).res <;> simpa only [hr] using hq

theorem cleanUp {f : Act σ ω ε Unit} {M : ε → σ → List ω → Prop}
    (h : Sound R P m fun r s l => match r with
      | .ok a => Q (.ok a) s l
      | .error e => M e s l)
    (after : ∀ e, Sound R (M e) f fun _ s l => Q (.error e) s l) :
    Sound R P (m.cleanUp f) Q := by
  intro s l hp
  obtain ⟨run, hq⟩ := h s l hp
  simp only [Act.cleanUp]
  cases hr : (m s).res with
  | ok a =>
    rw [hr] at hq
    exact ⟨run, hq⟩
  | error e =>
    rw [hr] at hq
    obtain ⟨run', hq'⟩ := after e _ _ hq
    simp only [← List.append_assoc]
    exact ⟨run.trans run', hq'⟩

theorem ite {c : Prop} [Decidable c] {k : Act σ ω ε α}
    (yes : c → Sound R P m Q) (no : ¬c → Sound R P k Q) :
    Sound R P (if c then m else k) Q := by
  split
  · rename_i h; exact yes h
  · rename_i h; exact no h

theorem when {c : Prop} [Decidable c] {m : Act σ ω ε Unit} {Q : Except ε Unit → σ → List ω → Prop}
    (yes : c → Sound R P m Q) (no : ¬c → ∀ s l, P s l → Q (.ok ()) s l) :
    Sound R P (Act.when c m) Q :=
  ite yes fun h => pure () (no h)

/-- Facts the assertions do not mention may be assumed from the precondition. -/
theorem assume {φ : Prop} (imp : ∀ s l, P s l → φ) (h : φ → Sound R P m Q) : Sound R P m Q := by
  intro s l hp
  exact h (imp s l hp) s l hp

end Sound

/-- A finer step relation may be replaced by a coarser one. -/
theorem Sound.coarsen {R' : Config σ ω → Config σ ω → Prop} (h : Sound R P m Q)
    (imp : ∀ c d, R c d → ReflTransGen R' c d) : Sound R' P m Q := by
  intro s l hp
  obtain ⟨run, hq⟩ := h s l hp
  exact ⟨Relation.reflTransGen_closed imp _ _ run, hq⟩

/-- From every `P`, running `m` ends in `Q`, whatever it does in between. -/
abbrev Triple (P : σ → List ω → Prop) (m : Act σ ω ε α) (Q : Except ε α → σ → List ω → Prop) :
    Prop := Sound (fun _ _ => True) P m Q

theorem Triple.of (h : ∀ s l, P s l → Q (m s).res (m s).state (l ++ (m s).trace)) :
    Triple P m Q := fun s l hp => ⟨.single trivial, h s l hp⟩

/-- What a stretch of code may do between any two of its points, whatever its result. -/
structure Frame (σ ω : Type) where
  rel : σ → List ω → σ → Prop
  refl : ∀ s, rel s [] s
  trans : ∀ {s t u : σ} {l k : List ω}, rel s l t → rel t k u → rel s (l ++ k) u

/-- From every state `m` stays within the frame. -/
structure Within (F : Frame σ ω) (m : Act σ ω ε α) : Prop where
  run : ∀ s, F.rel s (m s).trace (m s).state

namespace Within

variable {F : Frame σ ω}

theorem pure (a : α) : Within F (Pure.pure a : Act σ ω ε α) := ⟨F.refl⟩

theorem fail (e : ε) : Within F (Act.fail e : Act σ ω ε α) := ⟨F.refl⟩

theorem read : Within F (Act.read : Act σ ω ε σ) := ⟨F.refl⟩

theorem update {f : σ → σ} (step : ∀ s, F.rel s [] (f s)) :
    Within F (Act.update f : Act σ ω ε Unit) := ⟨step⟩

theorem emit {w : ω} (step : ∀ s, F.rel s [w] s) :
    Within F (Act.emit w : Act σ ω ε Unit) := ⟨step⟩

theorem bind {f : α → Act σ ω ε β} (first : Within F m) (rest : ∀ a, Within F (f a)) :
    Within F (m >>= f) := by
  constructor
  intro s
  have start := first.run s
  rw [Act.bind_run]
  cases hr : (m s).res with
  | ok a =>
    simp only [Out.andThen, hr]
    exact F.trans start ((rest a).run _)
  | error e =>
    simp only [Out.andThen, hr]
    exact start

theorem attempt (h : Within F m) : Within F m.attempt := ⟨h.run⟩

theorem orFail (h : Within F m) (e : ε) : Within F (m.orFail e) := ⟨h.run⟩

theorem cleanUp {f : Act σ ω ε Unit} (h : Within F m) (after : Within F f) :
    Within F (m.cleanUp f) := by
  constructor
  intro s
  have start := h.run s
  simp only [Act.cleanUp]
  cases hr : (m s).res with
  | ok a => exact start
  | error e => exact F.trans start (after.run _)

theorem ite {c : Prop} [Decidable c] {k : Act σ ω ε α} (yes : Within F m) (no : Within F k) :
    Within F (if c then m else k) := by
  split
  · exact yes
  · exact no

theorem when {c : Prop} [Decidable c] {m : Act σ ω ε Unit} (h : Within F m) :
    Within F (Act.when c m) := ite h (pure ())

end Within

/-- What every step keeps, every run keeps. -/
theorem invariant_of_step {I : Config σ ω → Prop} (keep : ∀ c d, I c → R c d → I d)
    {c d : Config σ ω} (run : ReflTransGen R c d) (hc : I c) : I d := by
  induction run with
  | refl => exact hc
  | tail _ step ih => exact keep _ _ ih step

end Traced
