import Mathlib.Logic.Relation
import Mathlib.Order.WellFounded

/-!
# Loops

`next` gives what a pass of a loop leaves, or nothing when the loop is left. A loop ends where an
invariant gives it a measure that every pass lowers.
-/

namespace Loop

variable {σ β : Type}

/-- From `s` the loop is left after finitely many passes. -/
inductive Ends (next : σ → Option σ) : σ → Prop
  | last {s : σ} (left : next s = none) : Ends next s
  | pass {s t : σ} (goes : next s = some t) (rest : Ends next t) : Ends next s

theorem Ends.of_measure [Preorder β] [WellFoundedLT β] {next : σ → Option σ} {I : σ → Prop}
    (f : σ → β) (lower : ∀ s t, I s → next s = some t → I t ∧ f t < f s) {s : σ} (start : I s) :
    Ends next s := by
  induction h : f s using WellFoundedLT.induction generalizing s with
  | ind b ih =>
    cases goes : next s with
    | none => exact .last goes
    | some t =>
      obtain ⟨kept, lt⟩ := lower s t start goes
      exact .pass goes (ih (f t) (h ▸ lt) kept rfl)

/-- The loop is left within some passes, and the test holds at the head of each. -/
def passes (next : σ → Option σ) (test : σ → Bool) : Nat → σ → Bool
  | 0, _ => false
  | n + 1, s => test s && match next s with
    | none => true
    | some t => passes next test n t

theorem passes_reached {next : σ → Option σ} {test : σ → Bool} {n : Nat} {s t : σ}
    (all : passes next test n s = true)
    (reached : Relation.ReflTransGen (fun x y => next x = some y) s t) : test t = true := by
  induction n generalizing s with
  | zero => cases all
  | succ n ih =>
    unfold passes at all
    rw [Bool.and_eq_true] at all
    obtain rfl | ⟨u, goes, rest⟩ := Relation.ReflTransGen.cases_head_iff.mp reached
    · exact all.1
    · rw [goes] at all
      exact ih all.2 rest

end Loop
