import Mathlib.Algebra.Group.Nat.Defs
import Mathlib.Logic.Function.Basic
import Mathlib.Tactic.Common
import Mathlib.Tactic.SplitIfs

/-!
# Byte memories

A memory gives each address one byte. `load` and `store` move lists of bytes,
`leBytes` and `leNat` are the little-endian number format. Lemmas say what a
store leaves alone and what a load finds after it.
-/

namespace ByteMem

abbrev Mem := Nat → UInt8

def load (m : Mem) (a n : Nat) : List UInt8 := (List.range n).map fun i => m (a + i)

def store (m : Mem) (a : Nat) (bs : List UInt8) : Mem :=
  fun x => if a ≤ x ∧ x < a + bs.length then bs.getD (x - a) 0 else m x

/-- The `k` low bytes of `v`, least significant first. -/
def leBytes : Nat → Nat → List UInt8
  | 0, _ => []
  | k + 1, v => UInt8.ofNat v :: leBytes k (v / 256)

def leNat : List UInt8 → Nat
  | [] => 0
  | b :: bs => b.toNat + 256 * leNat bs

@[simp] theorem length_load (m : Mem) (a n : Nat) : (load m a n).length = n := by simp [load]

@[simp] theorem load_zero (m : Mem) (a : Nat) : load m a 0 = [] := rfl

theorem getD_load (m : Mem) (a : Nat) {n i : Nat} (h : i < n) :
    (load m a n).getD i 0 = m (a + i) := by
  simp [load, List.getD_eq_getElem?_getD, h]

theorem load_congr {m m' : Mem} {a n : Nat} (h : ∀ i, i < n → m (a + i) = m' (a + i)) :
    load m a n = load m' a n := by
  apply List.map_congr_left
  intro i hi
  exact h i (List.mem_range.mp hi)

theorem eq_of_load_eq {m m' : Mem} {a n x : Nat} (h : load m a n = load m' a n) (lo : a ≤ x)
    (hi : x < a + n) : m x = m' x := by
  have := getD_load m a (n := n) (i := x - a) (by omega)
  rw [h, getD_load m' a (by omega)] at this
  rwa [Nat.add_sub_cancel' lo, eq_comm] at this

theorem load_append (m : Mem) (a n k : Nat) :
    load m a (n + k) = load m a n ++ load m (a + n) k := by
  simp [load, List.range_add, Nat.add_assoc]

theorem take_load (m : Mem) (a : Nat) {n k : Nat} (h : k ≤ n) :
    (load m a n).take k = load m a k := by
  obtain ⟨d, rfl⟩ := Nat.le.dest h
  rw [load_append, List.take_left' (by simp)]

theorem drop_load (m : Mem) (a : Nat) {n k : Nat} (h : k ≤ n) :
    (load m a n).drop k = load m (a + k) (n - k) := by
  obtain ⟨d, rfl⟩ := Nat.le.dest h
  rw [load_append, List.drop_left' (by simp), Nat.add_sub_cancel_left]

theorem load_eq_iff {m : Mem} {a : Nat} {bs : List UInt8} :
    load m a bs.length = bs ↔ ∀ i, i < bs.length → m (a + i) = bs.getD i 0 := by
  constructor
  · intro h i hi
    rw [← h, getD_load m a (by simpa using hi)]
  · intro h
    apply List.ext_getElem (by simp)
    intro i _ hi
    have := h i hi
    simp [load, this, hi]

theorem store_apply_of_mem (m : Mem) {a x : Nat} {bs : List UInt8}
    (lo : a ≤ x) (hi : x < a + bs.length) : store m a bs x = bs.getD (x - a) 0 := by
  simp [store, lo, hi]

theorem store_apply_of_not_mem (m : Mem) {a x : Nat} {bs : List UInt8}
    (h : x < a ∨ a + bs.length ≤ x) : store m a bs x = m x := by
  have : ¬(a ≤ x ∧ x < a + bs.length) := by omega
  simp only [store, this, if_false]

theorem store_nil (m : Mem) (a : Nat) : store m a [] = m := by
  funext x
  exact store_apply_of_not_mem m (by simp; omega)

theorem load_store_same (m : Mem) (a : Nat) (bs : List UInt8) :
    load (store m a bs) a bs.length = bs := by
  rw [load_eq_iff]
  intro i hi
  rw [store_apply_of_mem m (by omega) (by omega), Nat.add_sub_cancel_left]

/-- A range inside what has been stored. -/
theorem load_store_inside (m : Mem) (a : Nat) {bs : List UInt8} {k n : Nat}
    (h : k + n ≤ bs.length) : load (store m a bs) (a + k) n = (bs.drop k).take n := by
  conv_rhs => rw [← load_store_same m a bs]
  rw [drop_load _ _ (by omega), take_load _ _ (by omega)]

theorem load_store_disjoint (m : Mem) {a b n : Nat} {bs : List UInt8}
    (h : b + n ≤ a ∨ a + bs.length ≤ b) : load (store m a bs) b n = load m b n := by
  apply load_congr
  intro i hi
  exact store_apply_of_not_mem m (by omega)

/-- Two stores, the second right behind the first. -/
theorem store_append (m : Mem) (a : Nat) (bs cs : List UInt8) :
    store (store m a bs) (a + bs.length) cs = store m a (bs ++ cs) := by
  funext x
  simp only [store, List.length_append, List.getD_eq_getElem?_getD]
  by_cases before : x < a + bs.length
  · rw [if_neg (by omega)]
    by_cases lo : a ≤ x
    · rw [if_pos ⟨lo, before⟩, if_pos (by omega), List.getElem?_append_left (by omega)]
    · rw [if_neg (by omega), if_neg (by omega)]
  · by_cases hi : x < a + bs.length + cs.length
    · rw [if_pos (by omega), if_pos (by omega), List.getElem?_append_right (by omega),
        Nat.sub_sub]
    · rw [if_neg (by omega), if_neg (by omega), if_neg (by omega)]

/-- A copy between two memories, byte by byte. -/
theorem store_load_apply (m d : Mem) (a b n x : Nat) :
    store m a (load d b n) x = if a ≤ x ∧ x < a + n then d (b + (x - a)) else m x := by
  simp only [store, length_load]
  split
  · exact getD_load d b (by omega)
  · rfl

@[simp] theorem length_leBytes (k v : Nat) : (leBytes k v).length = k := by
  induction k generalizing v with
  | zero => rfl
  | succ k ih => simp [leBytes, ih]

theorem leNat_leBytes (k v : Nat) : leNat (leBytes k v) = v % 256 ^ k := by
  induction k generalizing v with
  | zero => simp [leBytes, leNat, Nat.mod_one]
  | succ k ih =>
    have hb : (UInt8.ofNat v).toNat = v % 256 := by simp
    rw [leBytes, leNat, ih, hb, Nat.pow_succ, Nat.mul_comm (256 ^ k), Nat.mod_mul]

theorem leBytes_leNat (bs : List UInt8) : leBytes bs.length (leNat bs) = bs := by
  induction bs with
  | nil => rfl
  | cons b bs ih =>
    have high : (b.toNat + 256 * leNat bs) / 256 = leNat bs := by
      have := b.toNat_lt
      omega
    simp [leNat, leBytes, high, ih]

theorem leNat_lt (bs : List UInt8) : leNat bs < 256 ^ bs.length := by
  induction bs with
  | nil => simp [leNat]
  | cons b bs ih =>
    have := b.toNat_lt
    simp only [leNat, List.length_cons, Nat.pow_succ]
    omega

/-- All bytes are 0xFF when the number is as large as it can be. -/
theorem eq_ff_of_leNat {bs : List UInt8} (h : leNat bs + 1 = 256 ^ bs.length) :
    ∀ b ∈ bs, b = 0xFF := by
  induction bs with
  | nil => simp
  | cons b bs ih =>
    have hb := b.toNat_lt
    have hbs := leNat_lt bs
    simp only [leNat, List.length_cons, Nat.pow_succ] at h
    intro c hc
    cases hc with
    | head => exact UInt8.toNat_inj.mp (show b.toNat = 255 by omega)
    | tail _ hc => exact ih (by omega) c hc

/-- A little-endian number of four bytes. -/
def word (m : Mem) (a : Nat) : Nat := leNat (load m a 4)

theorem word_lt (m : Mem) (a : Nat) : word m a < 2 ^ 32 := by
  have := leNat_lt (load m a 4)
  simpa [word] using this

theorem word_congr {m m' : Mem} {a : Nat} (h : ∀ x, a ≤ x → x < a + 4 → m x = m' x) :
    word m a = word m' a := by
  rw [word, word, load_congr]
  intro i hi
  exact h _ (by omega) (by omega)

theorem word_store_same (m : Mem) (a v : Nat) (h : v < 2 ^ 32) :
    word (store m a (leBytes 4 v)) a = v := by
  have := load_store_same m a (leBytes 4 v)
  rw [length_leBytes] at this
  rw [word, this, leNat_leBytes]
  omega

end ByteMem
