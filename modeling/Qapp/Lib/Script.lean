/-!
# Scripts

A script is a finite tree of calls, with one branch for each answer of a call. What
a call does is a relation, so the same script runs alone, beside another one, or on
a finer level where each of its calls is a script itself.
-/

inductive Script (Op : Type) (Ans : Op → Type) (α : Type) : Type where
  | ret (a : α)
  | call (op : Op) (next : Ans op → Script Op Ans α)

namespace Script
variable {Op Op' : Type} {Ans : Op → Type} {Ans' : Op' → Type} {α β σ μ : Type}

def bind : Script Op Ans α → (α → Script Op Ans β) → Script Op Ans β
  | ret a, f => f a
  | call op next, f => call op fun x => (next x).bind f

instance : Monad (Script Op Ans) where
  pure := ret
  bind := bind

/-- One call, and its answer. -/
def perform (op : Op) : Script Op Ans (Ans op) := call op ret

@[simp] theorem pure_eq (a : α) : (pure a : Script Op Ans α) = ret a := rfl

@[simp] theorem ret_bind (a : α) (f : α → Script Op Ans β) : (ret a >>= f) = f a := rfl

@[simp] theorem call_bind (op : Op) (next : Ans op → Script Op Ans α)
    (f : α → Script Op Ans β) : (call op next >>= f) = call op fun x => next x >>= f := rfl

@[simp] theorem perform_bind (op : Op) (f : Ans op → Script Op Ans β) :
    (perform op >>= f) = call op f := rfl

/-- The script with every call replaced by a script for it. -/
def expand (h : (op : Op) → Script Op' Ans' (Ans op)) : Script Op Ans α → Script Op' Ans' α
  | ret a => ret a
  | call op next => h op >>= fun x => (next x).expand h

/-! ## What a script may call -/

/-- Every call the script can come to, whatever is answered, meets `P`. -/
def All (P : Op → Prop) : Script Op Ans α → Prop
  | ret _ => True
  | call op next => P op ∧ ∀ x, (next x).All P

theorem All.of_forall {P : Op → Prop} (h : ∀ op, P op) (p : Script Op Ans α) : p.All P := by
  induction p with
  | ret a => trivial
  | call op next ih => exact ⟨h op, ih⟩

theorem All.bind {P : Op → Prop} {p : Script Op Ans α} {f : α → Script Op Ans β} (h : p.All P)
    (hf : ∀ a, (f a).All P) : (p >>= f).All P := by
  induction p with
  | ret a => exact hf a
  | call op next ih =>
    constructor
    · exact h.1
    · intro x
      exact ih x (h.2 x)

theorem All.mono {P Q : Op → Prop} {p : Script Op Ans α} (h : p.All P) (imp : ∀ op, P op → Q op) :
    p.All Q := by
  induction p with
  | ret a => trivial
  | call op next ih =>
    constructor
    · exact imp op h.1
    · intro x
      exact ih x (h.2 x)

/-- The script keeps to a protocol: `δ` says which mode a call leads to, if it is allowed.
`final` is about the result and the mode at the end. -/
def Follows (δ : μ → (op : Op) → Ans op → Option μ) (final : α → μ → Prop) :
    μ → Script Op Ans α → Prop
  | m, ret a => final a m
  | m, call op next => ∀ x, ∃ n, δ m op x = some n ∧ (next x).Follows δ final n

/-- Scripts in sequence: the second takes over in a mode the first may end in. -/
theorem Follows.bind {δ : μ → (op : Op) → Ans op → Option μ} {mid : α → μ → Prop}
    {final : β → μ → Prop} {m : μ} {p : Script Op Ans α} {f : α → Script Op Ans β}
    (h : p.Follows δ mid m) (hf : ∀ a n, mid a n → (f a).Follows δ final n) :
    (p >>= f).Follows δ final m := by
  induction p generalizing m with
  | ret a => exact hf a m h
  | call op next ih =>
    intro x
    obtain ⟨n, allowed, rest⟩ := h x
    exact ⟨n, allowed, ih x rest⟩

theorem Follows.mono {δ : μ → (op : Op) → Ans op → Option μ} {final final' : α → μ → Prop} {m : μ}
    {p : Script Op Ans α} (h : p.Follows δ final m) (imp : ∀ a n, final a n → final' a n) :
    p.Follows δ final' m := by
  induction p generalizing m with
  | ret a => exact imp a m h
  | call op next ih =>
    intro x
    obtain ⟨n, allowed, rest⟩ := h x
    exact ⟨n, allowed, ih x rest⟩

theorem Follows.expand {δ : μ → (op : Op') → Ans' op → Option μ} {mid : μ → Prop} {m : μ}
    {h : (op : Op) → Script Op' Ans' (Ans op)} (hm : mid m)
    (each : ∀ op n, mid n → (h op).Follows δ (fun _ => mid) n) (p : Script Op Ans α) :
    (p.expand h).Follows δ (fun _ => mid) m := by
  induction p generalizing m with
  | ret a => exact hm
  | call op next ih => exact (each op m hm).bind fun x n hn => ih x hn

/-- Where every call is allowed and leads nowhere else, any script follows. -/
theorem Follows.absorbed {δ : μ → (op : Op) → Ans op → Option μ} {final : α → μ → Prop} {m : μ}
    (stays : ∀ op x, δ m op x = some m) (ends : ∀ a, final a m) (p : Script Op Ans α) :
    p.Follows δ final m := by
  induction p with
  | ret a => exact ends a
  | call op next ih =>
    intro x
    exact ⟨m, stays op x, ih x⟩

/-- The script can come to a call that meets `goal`, with none before it that meets `stop`. -/
def Before (goal stop : Op → Prop) : Script Op Ans α → Prop
  | ret _ => False
  | call op next => goal op ∨ ¬stop op ∧ ∃ x, (next x).Before goal stop

/-! ## Running -/

/-- `R` says what a call may do and answer. -/
inductive Runs (R : σ → (op : Op) → Ans op → σ → Prop) : Script Op Ans α → σ → α → σ → Prop where
  | ret (a : α) (s : σ) : Runs R (.ret a) s a s
  | call {op : Op} {next : Ans op → Script Op Ans α} {s t u : σ} {x : Ans op} {a : α}
      (step : R s op x t) (rest : Runs R (next x) t a u) : Runs R (.call op next) s a u

section Runs
variable {R : σ → (op : Op) → Ans op → σ → Prop} {s t u : σ} {a : α} {b : β}

theorem Runs.bind {p : Script Op Ans α} {f : α → Script Op Ans β} (h : Runs R p s a t)
    (rest : Runs R (f a) t b u) : Runs R (p >>= f) s b u := by
  induction h with
  | ret a s => exact rest
  | call step _ ih => exact .call step (ih rest)

theorem Runs.split {p : Script Op Ans α} {f : α → Script Op Ans β} (h : Runs R (p >>= f) s b u) :
    ∃ a t, Runs R p s a t ∧ Runs R (f a) t b u := by
  induction p generalizing s with
  | ret a => exact ⟨a, s, .ret a s, h⟩
  | call op next ih =>
    cases h with
    | call step rest =>
      obtain ⟨a, t, first, last⟩ := ih _ rest
      exact ⟨a, t, .call step first, last⟩

theorem Runs.mono {R' : σ → (op : Op) → Ans op → σ → Prop} {p : Script Op Ans α} (h : Runs R p s a t)
    (imp : ∀ s op x t, R s op x t → R' s op x t) : Runs R' p s a t := by
  induction h with
  | ret a s => exact .ret a s
  | call step _ ih => exact .call (imp _ _ _ _ step) ih

theorem Runs.ret_inv {a' : α} (h : Runs R (.ret a) s a' u) : a = a' ∧ s = u := by
  cases h
  exact ⟨rfl, rfl⟩

theorem Runs.call_inv {op : Op} {next : Ans op → Script Op Ans α} (h : Runs R (.call op next) s a u) :
    ∃ x t, R s op x t ∧ Runs R (next x) t a u := by
  cases h with
  | call step rest => exact ⟨_, _, step, rest⟩

/-- A script for each call, and the call as a whole. -/
theorem runs_expand_iff {R : σ → (op : Op') → Ans' op → σ → Prop}
    {h : (op : Op) → Script Op' Ans' (Ans op)} {p : Script Op Ans α} {s u : σ} {a : α} :
    Runs R (p.expand h) s a u ↔ Runs (fun s op x t => Runs R (h op) s x t) p s a u := by
  constructor
  · intro run
    induction p generalizing s with
    | ret b =>
      obtain ⟨rfl, rfl⟩ := run.ret_inv
      exact .ret _ _
    | call op next ih =>
      obtain ⟨x, t, first, rest⟩ := run.split
      exact .call first (ih x rest)
  · intro run
    induction run with
    | ret a s => exact .ret a s
    | call step _ ih => exact step.bind ih

/-- A script that follows a protocol ends in a mode that fits, if each call of it keeps the
modes in step with the state. -/
theorem Runs.follows {δ : μ → (op : Op) → Ans op → Option μ} {final : α → μ → Prop}
    {P : Op → Prop} {J : μ → σ → Prop} {p : Script Op Ans α} {m : μ} (run : Runs R p s a u)
    (follows : p.Follows δ final m) (all : p.All P) (fits : J m s)
    (each : ∀ {m n s op x t}, P op → J m s → δ m op x = some n → R s op x t → J n t) :
    ∃ n, final a n ∧ J n u := by
  induction run generalizing m with
  | ret a s => exact ⟨m, follows, fits⟩
  | call step _ ih =>
    obtain ⟨n, allowed, rest⟩ := follows _
    exact ih rest (all.2 _) (each all.1 fits allowed step)

/-- The run where `serve` answers each call. -/
def exec (serve : (op : Op) → σ → Ans op × σ) : Script Op Ans α → σ → α × σ
  | ret a, s => (a, s)
  | call op next, s => (next (serve op s).1).exec serve (serve op s).2

theorem runs_exec {serve : (op : Op) → σ → Ans op × σ}
    (each : ∀ op s, R s op (serve op s).1 (serve op s).2) (p : Script Op Ans α) (s : σ) :
    Runs R p s (p.exec serve s).1 (p.exec serve s).2 := by
  induction p generalizing s with
  | ret a => exact .ret a s
  | call op next ih => exact .call (each op s) (ih _ _)

end Runs

/-! ## Two scripts side by side -/

/-- The calls of two scripts in any order, up to the end of both. -/
inductive Both (R : σ → (op : Op) → Ans op → σ → Prop) :
    Script Op Ans α → Script Op Ans β → σ → α → β → σ → Prop where
  | done (a : α) (b : β) (s : σ) : Both R (.ret a) (.ret b) s a b s
  | left {op : Op} {next : Ans op → Script Op Ans α} {q : Script Op Ans β} {s t u : σ} {x : Ans op}
      {a : α} {b : β} (step : R s op x t) (rest : Both R (next x) q t a b u) :
      Both R (.call op next) q s a b u
  | right {op : Op} {p : Script Op Ans α} {next : Ans op → Script Op Ans β} {s t u : σ} {x : Ans op}
      {a : α} {b : β} (step : R s op x t) (rest : Both R p (next x) t a b u) :
      Both R p (.call op next) s a b u

section Both
variable {R : σ → (op : Op) → Ans op → σ → Prop} {s t u : σ} {a : α} {b : β}
  {p : Script Op Ans α} {q : Script Op Ans β}

theorem Runs.then_left (h : Runs R q s b t) (rest : Both R p (.ret b) t a b u) :
    Both R p q s a b u := by
  induction h with
  | ret b s => exact rest
  | call step _ ih => exact .right step (ih rest)

theorem Runs.both_left (h : Runs R p s a u) (b : β) : Both R p (.ret b) s a b u := by
  induction h with
  | ret a s => exact .done a b s
  | call step _ ih => exact .left step ih

theorem Both.swap (h : Both R p q s a b u) : Both R q p s b a u := by
  induction h with
  | done a b s => exact .done b a s
  | left step _ ih => exact .right step ih
  | right step _ ih => exact .left step ih

theorem Both.mono {R' : σ → (op : Op) → Ans op → σ → Prop} (h : Both R p q s a b u)
    (imp : ∀ s op x t, R s op x t → R' s op x t) : Both R' p q s a b u := by
  induction h with
  | done a b s => exact .done a b s
  | left step _ ih => exact .left (imp _ _ _ _ step) ih
  | right step _ ih => exact .right (imp _ _ _ _ step) ih

/-- The first script alone, with the answers it got beside the other one. -/
theorem Both.answered (h : Both R p q s a b u) (v : μ) :
    Runs (fun _ op x _ => ∃ s t, R s op x t) p v a v := by
  induction h with
  | done a b s => exact .ret a v
  | left step _ ih => exact .call ⟨_, _, step⟩ ih
  | right _ _ ih => exact ih

/-- `p` comes to `p'` by calls of its own. -/
inductive Steps (R : σ → (op : Op) → Ans op → σ → Prop) :
    Script Op Ans α → σ → Script Op Ans α → σ → Prop where
  | refl (p : Script Op Ans α) (s : σ) : Steps R p s p s
  | call {op : Op} {next : Ans op → Script Op Ans α} {p' : Script Op Ans α} {s t u : σ} {x : Ans op}
      (step : R s op x t) (rest : Steps R (next x) t p' u) : Steps R (.call op next) s p' u

/-- The other script is only started now. -/
theorem Steps.both {p' : Script Op Ans α} (h : Steps R p s p' t) (rest : Both R p' q t a b u) :
    Both R p q s a b u := by
  induction h with
  | refl p s => exact rest
  | call step _ ih => exact .left step (ih rest)

end Both

/-! ## Two scripts that keep apart -/

section Local
variable {R : σ → (op : Op) → Ans op → σ → Prop} {P Q : Op → Prop} {A B : σ → σ → Prop}
  {s u : σ} {a : α} {b : β} {p : Script Op Ans α} {q : Script Op Ans β}

/-- Calls that meet `P` see and change only what `A` compares; what `B` compares stays. -/
structure Local (R : σ → (op : Op) → Ans op → σ → Prop) (P : Op → Prop) (A B : σ → σ → Prop) :
    Prop where
  repeats : ∀ {s s' t : σ} {op : Op} {x : Ans op}, P op → R s op x t → A s s' →
    ∃ t', R s' op x t' ∧ A t t'
  leaves : ∀ {s s' t : σ} {op : Op} {x : Ans op}, P op → R s op x t → B s s' → B t s'

/-- The same run from another state that compares equal. -/
theorem Local.again (left : Local R P A B) (h : Runs R p s a u) (hp : p.All P) {s' : σ}
    (alike : A s s') : ∃ u', Runs R p s' a u' ∧ A u u' := by
  induction h generalizing s' with
  | ret a s => exact ⟨s', .ret a s', alike⟩
  | call step _ ih =>
    obtain ⟨t', same, alike⟩ := left.repeats hp.1 step alike
    obtain ⟨u', run, ends⟩ := ih (hp.2 _) alike
    exact ⟨u', .call same run, ends⟩

/-- Each of the two runs as if it were alone. -/
theorem Both.apart (left : Local R P A B) (right : Local R Q B A) (h : Both R p q s a b u)
    (hp : p.All P) (hq : q.All Q) {sA sB : σ} (alike : A s sA) (alike' : B s sB) :
    (∃ t, Runs R p sA a t ∧ A u t) ∧ ∃ t, Runs R q sB b t ∧ B u t := by
  induction h generalizing sA sB with
  | done a b s => exact ⟨⟨sA, .ret a sA, alike⟩, sB, .ret b sB, alike'⟩
  | left step _ ih =>
    obtain ⟨t, same, alike⟩ := left.repeats hp.1 step alike
    obtain ⟨⟨v, run, ends⟩, other⟩ := ih (hp.2 _) hq alike (left.leaves hp.1 step alike')
    exact ⟨⟨v, .call same run, ends⟩, other⟩
  | right step _ ih =>
    obtain ⟨t, same, alike'⟩ := right.repeats hq.1 step alike'
    obtain ⟨other, v, run, ends⟩ := ih hp (hq.2 _) (right.leaves hq.1 step alike) alike'
    exact ⟨other, v, .call same run, ends⟩

end Local

/-! ## An invariant of two scripts -/

section Keeps
variable {R : σ → (op : Op) → Ans op → σ → Prop} {I : σ → Prop} {good : α → Prop}
  {good' : β → Prop} {s u : σ} {a : α} {b : β} {p : Script Op Ans α} {q : Script Op Ans β}

/-- The script can still end with a good result. -/
def CanEnd (good : α → Prop) : Script Op Ans α → Prop
  | ret a => good a
  | call _ next => ∃ x, (next x).CanEnd good

/-- Each call keeps `I`, unless no good result can come any more. -/
def Keeps (R : σ → (op : Op) → Ans op → σ → Prop) (I : σ → Prop) (good : α → Prop) :
    Script Op Ans α → Prop
  | ret _ => True
  | call op next => ∀ s x t, I s → R s op x t → (next x).CanEnd good →
      I t ∧ (next x).Keeps R I good

theorem All.keeps {P : Op → Prop} (h : p.All P)
    (each : ∀ s op x t, P op → I s → R s op x t → I t) : p.Keeps R I good := by
  induction p with
  | ret a => trivial
  | call op next ih =>
    intro s x t hs step _
    constructor
    · exact each s op x t h.1 hs step
    · exact ih x (h.2 x)

theorem Both.canEnd (h : Both R p q s a b u) (hb : good' b) : q.CanEnd good' := by
  induction h with
  | done a b s => exact hb
  | left _ _ ih => exact ih hb
  | right _ _ ih => exact ⟨_, ih hb⟩

variable (I good good') in
theorem Both.keeps (h : Both R p q s a b u) (hs : I s) (hp : p.Keeps R I good)
    (hq : q.Keeps R I good') (ha : good a) (hb : good' b) : I u := by
  induction h with
  | done a b s => exact hs
  | left step rest ih =>
    obtain ⟨ht, hp⟩ := hp _ _ _ hs step (rest.swap.canEnd ha)
    exact ih ht hp hq ha hb
  | right step rest ih =>
    obtain ⟨ht, hq⟩ := hq _ _ _ hs step (rest.canEnd hb)
    exact ih ht hp hq ha hb

end Keeps

end Script
