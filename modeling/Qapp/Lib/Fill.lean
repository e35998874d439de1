import Qapp.Lib.Nor

/-!
# Filling erased blocks

A writer that erases the blocks of an area one after the other, each before it writes to it,
and writes its data in order gets the data back whatever the area held before.
-/

namespace Nor
open ByteMem

inductive Cmd where
  | erase (a n : Nat)
  | program (a : Nat) (bytes : List UInt8)

namespace Cmd

def run (m : Mem) : Cmd → Mem
  | .erase a n => Nor.erase m a n
  | .program a bytes => Nor.program m a bytes

def start : Cmd → Nat
  | .erase a _ | .program a _ => a

def size : Cmd → Nat
  | .erase _ n => n
  | .program _ bytes => bytes.length

/-- The command does not touch the `n` bytes at `a`. -/
def Misses (cmd : Cmd) (a n : Nat) : Prop := cmd.start + cmd.size ≤ a ∨ a + n ≤ cmd.start

/-- What a command leaves at `x` depends on what was there only. -/
theorem run_congr {m m' : Mem} {x : Nat} (same : m x = m' x) (cmd : Cmd) :
    cmd.run m x = cmd.run m' x := by
  cases cmd with
  | erase a n =>
    change (if _ then _ else m x) = if _ then _ else m' x
    rw [same]
  | program a bytes =>
    change (if _ then m x &&& _ else m x) = if _ then m' x &&& _ else m' x
    rw [same]

end Cmd

def run (m : Mem) (cmds : List Cmd) : Mem := cmds.foldl Cmd.run m

theorem run_snoc (m : Mem) (cmds : List Cmd) (cmd : Cmd) :
    run m (cmds ++ [cmd]) = cmd.run (run m cmds) := by
  rw [run, List.foldl_append]
  rfl

/-- `cmds` have erased the first `blocks` blocks from `base` on and have written `data` there. -/
inductive Filled (base block : Nat) : List Cmd → List UInt8 → Nat → Prop
  | empty : Filled base block [] [] 0
  | erase {cmds : List Cmd} {data : List UInt8} {blocks : Nat}
      (filled : Filled base block cmds data blocks) (k : Nat) :
      Filled base block (cmds ++ [.erase (base + blocks * block) (k * block)]) data (blocks + k)
  | program {cmds : List Cmd} {data bytes : List UInt8} {blocks : Nat}
      (filled : Filled base block cmds data blocks)
      (fits : data.length + bytes.length ≤ blocks * block) :
      Filled base block (cmds ++ [.program (base + data.length) bytes]) (data ++ bytes) blocks

namespace Filled
variable {base block blocks : Nat} {cmds : List Cmd} {data : List UInt8}

theorem fits (h : Filled base block cmds data blocks) : data.length ≤ blocks * block := by
  induction h with
  | empty => exact Nat.zero_le _
  | erase _ k ih =>
    rw [Nat.add_mul]
    omega
  | program _ fits _ => rwa [List.length_append]

/-- The data is there, and behind it everything is erased. -/
theorem run_eq (h : Filled base block cmds data blocks) (m : Mem) :
    load (run m cmds) base data.length = data ∧
      Blank (run m cmds) (base + data.length) (blocks * block - data.length) := by
  induction h with
  | empty =>
    refine ⟨rfl, fun x lo hi => ?_⟩
    rw [Nat.zero_mul] at hi
    omega
  | @erase cmds data blocks filled k ih =>
    obtain ⟨stored, blank⟩ := ih
    have fits := filled.fits
    rw [run_snoc]
    constructor
    · rw [← stored, length_load]
      apply load_congr
      intro i lt
      exact erase_outside _ (by omega)
    · intro x lo hi
      by_cases old : x < base + blocks * block
      · rw [Cmd.run, erase_outside _ (.inl old)]
        exact blank x lo (by omega)
      · rw [Nat.add_mul] at hi
        exact erase_inside _ (by omega) (by omega)
  | @program cmds data bytes blocks filled fits ih =>
    obtain ⟨stored, blank⟩ := ih
    have ready : Blank (run m cmds) (base + data.length) bytes.length := by
      intro x lo hi
      exact blank x lo (by omega)
    rw [run_snoc, List.length_append]
    constructor
    · rw [load_append]
      congr 1
      · rw [← stored, length_load]
        apply load_congr
        intro i lt
        exact program_outside _ (by omega)
      · exact load_program_blank ready
    · intro x lo hi
      rw [Cmd.run, program_outside _ (by omega)]
      exact blank x (by omega) (by omega)

/-- Whatever the area held, it now holds the data. -/
theorem stored (h : Filled base block cmds data blocks) (m : Mem) :
    load (run m cmds) base data.length = data := (h.run_eq m).1

/-- No command leaves the blocks that are erased. -/
theorem inside (h : Filled base block cmds data blocks) :
    ∀ cmd ∈ cmds, base ≤ cmd.start ∧ cmd.start + cmd.size ≤ base + blocks * block := by
  induction h with
  | empty => exact fun _ mem => absurd mem List.not_mem_nil
  | @erase cmds data blocks filled k ih =>
    intro cmd mem
    rw [Nat.add_mul]
    obtain mem | mem := List.mem_append.mp mem
    · have := ih cmd mem
      omega
    · rw [List.mem_singleton.mp mem]
      change _ ≤ base + blocks * block ∧ base + blocks * block + k * block ≤ _
      omega
  | @program cmds data bytes blocks filled fits ih =>
    intro cmd mem
    obtain mem | mem := List.mem_append.mp mem
    · exact ih cmd mem
    · rw [List.mem_singleton.mp mem]
      change _ ≤ base + data.length ∧ base + data.length + bytes.length ≤ _
      omega

end Filled

/-- One command erases the `n` bytes at `a`. None before it touches them, and none behind it
erases them. -/
def ErasedOnce (a n : Nat) (cmds : List Cmd) : Prop :=
  ∃ before b k after, cmds = before ++ .erase b k :: after ∧ b ≤ a ∧ a + n ≤ b + k ∧
    (∀ cmd ∈ before, cmd.Misses a n) ∧ ∀ c l, .erase c l ∈ after → (Cmd.erase c l).Misses a n

theorem ErasedOnce.snoc {a n : Nat} {cmds : List Cmd} (h : ErasedOnce a n cmds) {cmd : Cmd}
    (misses : ∀ c l, cmd = .erase c l → cmd.Misses a n) : ErasedOnce a n (cmds ++ [cmd]) := by
  obtain ⟨before, b, k, after, rfl, lo, hi, first, once⟩ := h
  refine ⟨before, b, k, after ++ [cmd], by simp, lo, hi, first, fun c l mem => ?_⟩
  obtain mem | mem := List.mem_append.mp mem
  · exact once c l mem
  · obtain rfl := List.mem_singleton.mp mem
    exact misses c l rfl

theorem block_le {i j : Nat} (block : Nat) (lt : i < j) : i * block + block ≤ j * block := by
  rw [← Nat.succ_mul]
  exact Nat.mul_le_mul_right block lt

/-- Each block is erased once, before its first byte is written. -/
theorem Filled.once {base block blocks : Nat} {cmds : List Cmd} {data : List UInt8}
    (h : Filled base block cmds data blocks) :
    ∀ i < blocks, ErasedOnce (base + i * block) block cmds := by
  induction h with
  | empty => exact fun _ lt => absurd lt (Nat.not_lt_zero _)
  | @erase cmds data blocks filled k ih =>
    intro i lt
    by_cases old : i < blocks
    · refine (ih i old).snoc fun c l eq => ?_
      have := block_le block old
      exact .inr (by change _ ≤ base + blocks * block; omega)
    · have from_ : blocks * block ≤ i * block := Nat.mul_le_mul_right block (Nat.not_lt.mp old)
      have upto := block_le block lt
      rw [Nat.add_mul] at upto
      refine ⟨cmds, _, _, [], rfl, by omega, by omega, fun cmd mem => ?_,
        fun _ _ mem => absurd mem List.not_mem_nil⟩
      have := (filled.inside cmd mem).2
      exact .inl (by omega)
  | program filled fits ih =>
    intro i lt
    exact (ih i lt).snoc fun _ _ eq => by cases eq

end Nor
