import Mathlib.Tactic.Common

/-!
# Cyclic indices

Two indices of a ring with `n` slots stand for two counters that never wrap.
While the writer's counter is less than `n` ahead of the reader's, the indices
determine the distance, and slots of different outstanding counters differ.
-/

namespace Cyclic

/-- Free slots between a write and a read index, one slot always kept empty. -/
def avail (n wr rd : Nat) : Nat := if rd > wr then rd - wr - 1 else n - (wr - rd) - 1

/-- Slots from a read index up to a write index. -/
def behind (n wr rd : Nat) : Nat := (wr + n - rd) % n

theorem add_mod_cases {n d : Nat} (a : Nat) (hd : d < n) :
    (a + d) % n = a % n + d ∨ n ≤ a % n + d ∧ (a + d) % n = a % n + d - n := by
  have hn : 0 < n := by omega
  have ha := Nat.mod_lt a hn
  rw [Nat.add_mod, Nat.mod_eq_of_lt hd]
  by_cases h : a % n + d < n
  · exact .inl (Nat.mod_eq_of_lt h)
  · exact .inr ⟨by omega, by rw [Nat.mod_eq_sub_mod (by omega), Nat.mod_eq_of_lt (by omega)]⟩

/-- The cached read index only makes the writer see fewer free slots. -/
theorem avail_mod {n c w : Nat} (hcw : c ≤ w) (hlt : w < c + n) :
    avail n (w % n) (c % n) = n - 1 - (w - c) := by
  obtain ⟨d, rfl⟩ := Nat.le.dest hcw
  have ha := Nat.mod_lt c (show 0 < n by omega)
  rcases add_mod_cases c (show d < n by omega) with h | ⟨_, h⟩
  · rw [h]; unfold avail; split <;> omega
  · rw [h]; unfold avail; split <;> omega

theorem behind_mod {n p w : Nat} (hpw : p ≤ w) (hlt : w < p + n) :
    behind n (w % n) (p % n) = w - p := by
  obtain ⟨d, rfl⟩ := Nat.le.dest hpw
  have ha := Nat.mod_lt p (show 0 < n by omega)
  unfold behind
  rcases add_mod_cases p (show d < n by omega) with h | ⟨_, h⟩
  · rw [h, show p % n + d + n - p % n = n + d by omega, Nat.add_mod_left,
      Nat.mod_eq_of_lt (by omega)]
    omega
  · rw [h, show p % n + d - n + n - p % n = d by omega, Nat.mod_eq_of_lt (by omega)]
    omega

theorem slot_ne {n a b : Nat} (hab : a < b) (hlt : b < a + n) : a % n ≠ b % n := by
  intro h
  have hd := Nat.sub_mod_eq_zero_of_mod_eq h.symm
  rw [Nat.mod_eq_of_lt (by omega)] at hd
  omega

theorem mod_eq_iff {n a b : Nat} (hab : a ≤ b) (hlt : b < a + n) : a % n = b % n ↔ a = b := by
  constructor
  · intro h
    by_contra hne
    exact slot_ne (by omega) hlt h
  · rintro rfl; rfl

theorem succ_mod (n a : Nat) : (a % n + 1) % n = (a + 1) % n := by simp

end Cyclic
