import Mathlib.Logic.Function.Basic

/-!
# Allocated blocks and their owners

Code that allocates blocks of several kinds and has one pointer for each kind. A block whose
pointer is set anew before the block is freed is lost: nothing can free it any more.
-/

namespace Owners

/-- What happens to the pointer of kind `b`. -/
inductive Use (β : Type) where
  | alloc (b : β)
  /-- The allocation fails, and the pointer is NULL. -/
  | denied (b : β)
  | free (b : β)
  /-- The pointer is cleared. -/
  | forget (b : β)
  deriving DecidableEq

end Owners

/-- The pointers that hold a block, and how many blocks of each kind no pointer holds any more. -/
structure Owners (β : Type) where
  owned : β → Bool
  lost : β → Nat

namespace Owners
variable {β : Type} [DecidableEq β] {o o' : Owners β} {l : List (Use β)} {b : β}

def none : Owners β := ⟨fun _ => false, fun _ => 0⟩

/-- Sets a pointer. A block it holds is lost. -/
def set (o : Owners β) (b : β) (held : Bool) : Owners β where
  owned := Function.update o.owned b held
  lost := Function.update o.lost b (o.lost b + (o.owned b).toNat)

/-- Only a pointer that holds a block is freed. -/
def step (o : Owners β) : Use β → Option (Owners β)
  | .alloc b => some (o.set b true)
  | .denied b | .forget b => some (o.set b false)
  | .free b =>
    if o.owned b then some { o with owned := Function.update o.owned b false } else Option.none

def run (o : Owners β) (l : List (Use β)) : Option (Owners β) := l.foldlM step o

theorem run_append (o : Owners β) (l k : List (Use β)) :
    o.run (l ++ k) = (o.run l).bind fun o => o.run k := by
  simp [run, List.foldlM_append]

theorem run_snoc (o : Owners β) (l : List (Use β)) (u : Use β) :
    o.run (l ++ [u]) = (o.run l).bind fun o => o.step u := by
  simp [run]

/-- A pointer that holds nothing is set without a loss. -/
theorem set_lost (held : Bool) (idle : o.owned b = false) : (o.set b held).lost = o.lost := by
  simp [set, idle]

/-- Different pointers that all hold a block can be freed one after the other. -/
theorem run_frees {bs : List β} (nodup : bs.Nodup) (held : ∀ b ∈ bs, o.owned b = true) :
    o.run (bs.map .free) = some { o with owned := fun b => o.owned b && !decide (b ∈ bs) } := by
  induction bs generalizing o with
  | nil => simp [run]
  | cons c bs ih =>
    obtain ⟨apart, nodup⟩ := List.nodup_cons.mp nodup
    have first : o.run [.free c] = some { o with owned := Function.update o.owned c false } := by
      simp [run, step, held c (List.mem_cons_self ..)]
    rw [List.map_cons, ← List.singleton_append, run_append, first, Option.bind_some, ih nodup]
    · congr 2
      funext b
      by_cases eq : b = c <;> simp [eq]
    · intro b mem
      have ne : b ≠ c := fun eq => apart (eq ▸ mem)
      simp [ne, held b (List.mem_cons_of_mem _ mem)]

/-- What a pointer has held is either freed, lost or held still. -/
theorem step_balance {u : Use β} (run : o.step u = some o') (b : β) :
    (o.owned b).toNat + o.lost b + [u].count (.alloc b) =
      (o'.owned b).toNat + o'.lost b + [u].count (.free b) := by
  cases u with
  | alloc c =>
    cases run
    by_cases eq : b = c
    · subst eq
      simp [set]
      omega
    · simp [set, eq, Ne.symm eq]
  | denied c | forget c =>
    cases run
    by_cases eq : b = c
    · subst eq
      simp [set]
      omega
    · simp [set, eq]
  | free c =>
    simp only [step] at run
    cases held : o.owned c with
    | true =>
      rw [if_pos held] at run
      cases run
      by_cases eq : b = c
      · subst eq
        simp [held]
        omega
      · simp [eq, Ne.symm eq]
    | false => simp [held] at run

/-- The blocks that have been allocated and not freed are those held and those lost. -/
theorem run_balance (run : o.run l = some o') (b : β) :
    (o.owned b).toNat + o.lost b + l.count (.alloc b) =
      (o'.owned b).toNat + o'.lost b + l.count (.free b) := by
  induction l generalizing o with
  | nil =>
    cases run
    simp
  | cons u l ih =>
    rw [← List.singleton_append, run_append] at run
    obtain ⟨o₁, first, rest⟩ := Option.bind_eq_some_iff.mp run
    have balance := step_balance (u := u) (by simpa [Owners.run] using first) b
    have later := ih rest
    rw [← List.singleton_append, List.count_append, List.count_append]
    omega

end Owners
