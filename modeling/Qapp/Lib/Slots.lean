import Qapp.Lib.Nor
import Mathlib.Data.List.Basic

/-!
# Slot tables in NOR flash

Slots of one width that are filled from the front. A record is only ever programmed into the
first erased slot, so that the table reads as the list of what has been added.
-/

namespace Nor
open ByteMem

structure Slots where
  base : Nat
  width : Nat
  count : Nat

namespace Slots

variable {T : Slots} {m m' : Mem} {rs : List (List UInt8)} {r : List UInt8} {i j : Nat}
  {p : List UInt8 → Bool}

def addr (T : Slots) (j : Nat) : Nat := T.base + j * T.width

def slot (T : Slots) (m : Mem) (j : Nat) : List UInt8 := load m (T.addr j) T.width

/-- The first slots hold the records `rs`, and the others are erased. -/
structure Holds (T : Slots) (m : Mem) (rs : List (List UInt8)) : Prop where
  room : rs.length ≤ T.count
  full : ∀ j r, rs[j]? = some r → T.slot m j = r
  blank : ∀ j, rs.length ≤ j → j < T.count → Blank m (T.addr j) T.width

theorem addr_inside (lt : j < T.count) :
    T.base ≤ T.addr j ∧ T.addr j + T.width ≤ T.base + T.count * T.width := by
  have := Nat.mul_le_mul_right T.width (Nat.succ_le_of_lt lt)
  rw [Nat.succ_mul] at this
  unfold addr
  omega

theorem addr_before (lt : i < j) : T.addr i + T.width ≤ T.addr j := by
  have := Nat.mul_le_mul_right T.width (Nat.succ_le_of_lt lt)
  rw [Nat.succ_mul] at this
  unfold addr
  omega

theorem slot_congr (same : ∀ x, T.addr j ≤ x → x < T.addr j + T.width → m' x = m x) :
    T.slot m' j = T.slot m j := by
  apply load_congr
  intro i lt
  apply same <;> omega

theorem slot_blank (blank : Blank m (T.addr j) T.width) :
    T.slot m j = List.replicate T.width 0xFF := by
  apply List.eq_replicate_iff.mpr
  refine ⟨length_load .., fun b mem => ?_⟩
  obtain ⟨i, lt, rfl⟩ := List.mem_map.mp mem
  have := List.mem_range.mp lt
  apply blank <;> omega

namespace Holds

/-- What is done elsewhere. -/
theorem congr (holds : T.Holds m rs)
    (same : ∀ x, T.base ≤ x → x < T.base + T.count * T.width → m' x = m x) : T.Holds m' rs where
  room := holds.room
  full := by
    intro j r at_
    have inside := addr_inside (Nat.lt_of_lt_of_le (List.getElem?_eq_some_iff.mp at_).1 holds.room)
    rw [← holds.full j r at_]
    apply slot_congr
    intro x lo hi
    apply same <;> omega
  blank := by
    intro j le lt x lo hi
    have inside := addr_inside lt
    rw [same x (by omega) (by omega)]
    exact holds.blank j le lt x lo hi

theorem erased {a n : Nat} (lo : a ≤ T.base) (hi : T.base + T.count * T.width ≤ a + n) :
    T.Holds (erase m a n) [] where
  room := Nat.zero_le _
  full := by simp
  blank := by
    intro j _ lt x le lt'
    have inside := addr_inside lt
    apply erase_inside <;> omega

/-- One more record goes to the first slot that is erased. -/
theorem push (holds : T.Holds m rs) (more : rs.length < T.count) (width : r.length = T.width) :
    T.Holds (program m (T.addr rs.length) r) (rs ++ [r]) where
  room := by simpa using Nat.succ_le_of_lt more
  full := by
    intro j r' at_
    rcases Nat.lt_trichotomy j rs.length with lt | rfl | gt
    · rw [List.getElem?_append_left lt] at at_
      rw [← holds.full j r' at_]
      apply slot_congr
      intro x lo hi
      have apart := addr_before (T := T) lt
      apply program_outside
      omega
    · have eq : r = r' := by simpa using at_
      subst eq
      have blank := holds.blank rs.length (Nat.le_refl _) more
      rw [← width] at blank
      rw [slot, ← width]
      exact load_program_blank blank
    · have none : (rs ++ [r])[j]? = none := by
        apply List.getElem?_eq_none
        simpa using Nat.succ_le_of_lt gt
      cases none.symm.trans at_
  blank := by
    intro j le lt x lo hi
    rw [List.length_append, List.length_singleton] at le
    have apart := addr_before (T := T) le
    rw [program_outside m (.inr (by omega))]
    exact holds.blank j (by omega) lt x lo hi

theorem slot_of_lt (holds : T.Holds m rs) (lt : j < rs.length) : T.slot m j = rs[j] :=
  holds.full j _ (List.getElem?_eq_getElem lt)

/-- Among the slots a search finds the first such record. -/
theorem find (holds : T.Holds m rs) (off : p (List.replicate T.width 0xFF) = false) :
    (List.range T.count).find? (fun j => p (T.slot m j)) = rs.findIdx? p := by
  ext i
  rw [List.find?_range_eq_some, List.findIdx?_eq_some_iff_getElem]
  constructor
  · rintro ⟨hit, mem, before⟩
    have lt : i < rs.length := by
      by_contra no
      rw [slot_blank (holds.blank i (Nat.not_lt.mp no) (List.mem_range.mp mem)), off] at hit
      cases hit
    refine ⟨lt, ?_, fun j lt' => ?_⟩
    · rwa [holds.slot_of_lt lt] at hit
    · have := before j lt'
      rw [holds.slot_of_lt (Nat.lt_trans lt' lt)] at this
      simpa using this
  · rintro ⟨lt, hit, before⟩
    refine ⟨?_, List.mem_range.mpr (Nat.lt_of_lt_of_le lt holds.room), fun j lt' => ?_⟩
    · rwa [holds.slot_of_lt lt]
    · rw [holds.slot_of_lt (Nat.lt_trans lt' lt)]
      simpa using before j lt'

/-- A search for what only an erased slot shows finds the end of the table. -/
theorem find_erased (holds : T.Holds m rs) (on : p (List.replicate T.width 0xFF) = true)
    (records : ∀ r ∈ rs, p r = false)
    (found : (List.range T.count).find? (fun j => p (T.slot m j)) = some i) :
    i = rs.length ∧ i < T.count := by
  obtain ⟨hit, mem, before⟩ := List.find?_range_eq_some.mp found
  have lt := List.mem_range.mp mem
  refine ⟨?_, lt⟩
  rcases Nat.lt_trichotomy i rs.length with less | eq | more
  · rw [holds.slot_of_lt less, records _ (List.getElem_mem less)] at hit
    cases hit
  · exact eq
  · have := before rs.length more
    rw [slot_blank (holds.blank _ (Nat.le_refl _) (Nat.lt_trans more lt)), on] at this
    cases this

end Holds

end Slots

end Nor
