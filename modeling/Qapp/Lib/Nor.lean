import Qapp.Lib.ByteMem

/-!
# NOR flash

Erasing sets every byte of a range to 0xFF and programming can only clear bits,
so bytes come out as written only where the cells were erased. An operation that
fails may leave anything in its own range.
-/

namespace Nor
open ByteMem

def erase (m : Mem) (a n : Nat) : Mem := fun x => if a ≤ x ∧ x < a + n then 0xFF else m x

def program (m : Mem) (a : Nat) (bs : List UInt8) : Mem :=
  fun x => if a ≤ x ∧ x < a + bs.length then m x &&& bs.getD (x - a) 0 else m x

/-- `left` is what a failed operation leaves in its range. -/
def damage (m : Mem) (a n : Nat) (left : Mem) : Mem :=
  fun x => if a ≤ x ∧ x < a + n then left x else m x

/-- Every byte of a range is erased. -/
def Blank (m : Mem) (a n : Nat) : Prop := ∀ x, a ≤ x → x < a + n → m x = 0xFF

theorem erase_outside (m : Mem) {a n x : Nat} (h : x < a ∨ a + n ≤ x) : erase m a n x = m x := by
  have : ¬(a ≤ x ∧ x < a + n) := by omega
  simp only [erase, this, if_false]

theorem erase_inside (m : Mem) {a n x : Nat} (lo : a ≤ x) (hi : x < a + n) :
    erase m a n x = 0xFF := by
  simp [erase, lo, hi]

theorem program_outside (m : Mem) {a x : Nat} {bs : List UInt8}
    (h : x < a ∨ a + bs.length ≤ x) : program m a bs x = m x := by
  have : ¬(a ≤ x ∧ x < a + bs.length) := by omega
  simp only [program, this, if_false]

theorem program_inside (m : Mem) {a x : Nat} {bs : List UInt8} (lo : a ≤ x)
    (hi : x < a + bs.length) : program m a bs x = m x &&& bs.getD (x - a) 0 := by
  simp [program, lo, hi]

/-- Programming sets no bit. -/
theorem program_ff {m : Mem} {a x : Nat} {bs : List UInt8} (ff : program m a bs x = 0xFF) :
    m x = 0xFF := by
  unfold program at ff
  split at ff
  · apply UInt8.toNat_inj.mp
    have le : (m x &&& bs.getD (x - a) 0).toNat ≤ (m x).toNat := by
      rw [UInt8.toNat_and]
      exact Nat.and_le_left
    have := (m x).toNat_lt
    rw [ff] at le
    change 255 ≤ (m x).toNat at le
    change (m x).toNat = 255
    omega
  · exact ff

theorem damage_outside (m left : Mem) {a n x : Nat} (h : x < a ∨ a + n ≤ x) :
    damage m a n left x = m x := by
  have : ¬(a ≤ x ∧ x < a + n) := by omega
  simp only [damage, this, if_false]

@[simp] theorem blank_and (b : UInt8) : 0xFF &&& b = b := by
  apply UInt8.eq_of_toBitVec_eq
  rw [UInt8.toBitVec_and, show (0xFF : UInt8).toBitVec = BitVec.allOnes 8 from rfl,
    BitVec.allOnes_and]

/-- Into erased cells the bytes go exactly. -/
theorem program_blank {m : Mem} {a : Nat} {bs : List UInt8} (h : Blank m a bs.length) {x : Nat}
    (lo : a ≤ x) (hi : x < a + bs.length) : program m a bs x = bs.getD (x - a) 0 := by
  rw [program_inside m lo hi, h x lo hi, blank_and]

/-- A range that has been erased takes the bytes whatever was in it. -/
theorem program_erase (m : Mem) (a : Nat) (bs : List UInt8) :
    program (erase m a bs.length) a bs = store m a bs := by
  funext x
  by_cases inside : a ≤ x ∧ x < a + bs.length
  · have blank : Blank (erase m a bs.length) a bs.length := fun _ lo hi => erase_inside m lo hi
    rw [program_blank blank inside.1 inside.2, store_apply_of_mem m inside.1 inside.2]
  · have outside : x < a ∨ a + bs.length ≤ x := by omega
    rw [program_outside _ outside, erase_outside m outside, store_apply_of_not_mem m outside]

theorem load_program_blank {m : Mem} {a : Nat} {bs : List UInt8} (h : Blank m a bs.length) :
    load (program m a bs) a bs.length = bs := by
  rw [load_eq_iff]
  intro i hi
  rw [program_blank h (by omega) (by omega), Nat.add_sub_cancel_left]

end Nor
