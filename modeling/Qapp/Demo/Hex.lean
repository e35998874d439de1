import Qapp.Lib.CString

/-!
# Bytes from a hex string

`hex_string_to_bytes`, which is the same in both applications, and the strings it accepts
beyond pairs of hexadecimal digits.
-/

namespace Qapp.Demo
open CString

/-- `EINVAL` and `E2BIG`, returned with a minus. -/
inductive HexError
  | inval | tooBig
  deriving DecidableEq, Repr

/-- The string behind its `0x`. -/
def digitsOf : List UInt8 → List UInt8
  | z :: x :: s => if z = 0x30 ∧ (x = 0x78 ∨ x = 0x58) then s else z :: x :: s
  | s => s

/-- The loop over the pairs: whether it came to the end, and the bytes it has stored. -/
def storePairs : List UInt8 → Bool × List UInt8
  | a :: b :: s =>
    let (val, endptr) := strtoul16 [a, b]
    if endptr ≠ [] ∨ val > 0xFF then (false, [])
    else ((storePairs s).1, UInt8.ofNat val :: (storePairs s).2)
  | _ => (true, [])

/-- `hex_string_to_bytes`: what it returns, and what it has stored. The count of bytes fits
an int, since a string is shorter than the 32-bit address space. -/
def hexStringToBytes (hexStr : CString) (maxBytes : Nat) : Except HexError Nat × List UInt8 :=
  let s := digitsOf hexStr.chars
  if s.length % 2 ≠ 0 then (.error .inval, [])
  else if s.length / 2 > maxBytes then (.error .tooBig, [])
  else (if (storePairs s).1 then .ok (s.length / 2) else .error .inval, (storePairs s).2)

/-! ## The grammar -/

/-- Pairs of digits, and the bytes they stand for. -/
inductive Denotes : List UInt8 → List UInt8 → Prop
  | nil : Denotes [] []
  | pair {a b : UInt8} {x y : Nat} {s bytes : List UInt8} (high : digitValue a = some x)
      (low : digitValue b = some y) (rest : Denotes s bytes) :
      Denotes (a :: b :: s) (UInt8.ofNat (x * 16 + y) :: bytes)

/-- An optional prefix in front of the pairs. -/
def Spells (s bytes : List UInt8) : Prop :=
  ∃ digits, Denotes digits bytes ∧
    (s = digits ∨ s = 0x30 :: 0x78 :: digits ∨ s = 0x30 :: 0x58 :: digits)

/-- The strings of the grammar are accepted and no others, with the bytes they stand for. -/
structure Parses (hexStr : CString) (maxBytes : Nat) : Prop where
  accepts : (∃ n, (hexStringToBytes hexStr maxBytes).1 = .ok n) ↔
    ∃ bytes, Spells hexStr.chars bytes ∧ bytes.length ≤ maxBytes
  returns : ∀ bytes, Spells hexStr.chars bytes → bytes.length ≤ maxBytes →
    hexStringToBytes hexStr maxBytes = (.ok bytes.length, bytes)

def hexDigit (upper : Bool) (x : Nat) : UInt8 :=
  UInt8.ofNat (if x < 10 then 0x30 + x else if upper then 0x37 + x else 0x57 + x)

def hexDigits (upper : Bool) : List UInt8 → List UInt8
  | [] => []
  | byte :: bytes =>
    hexDigit upper (byte.toNat / 16) :: hexDigit upper (byte.toNat % 16) :: hexDigits upper bytes

theorem hexDigit_ne_zero (upper : Bool) : ∀ x, x < 16 → 0 ≠ hexDigit upper x := by
  cases upper <;> decide

theorem hexDigits_noNul (upper : Bool) (bytes : List UInt8) : 0 ∉ hexDigits upper bytes := by
  induction bytes with
  | nil => exact List.not_mem_nil
  | cons byte bytes ih =>
    have small := byte.toNat_lt
    have high := hexDigit_ne_zero upper (byte.toNat / 16) (by omega)
    have low := hexDigit_ne_zero upper (byte.toNat % 16) (by omega)
    simp [hexDigits, high, low, ih]

/-- The bytes as `%02X` or `%02x` prints them. -/
def hexPrint (upper : Bool) (bytes : List UInt8) : CString :=
  ⟨hexDigits upper bytes, hexDigits_noNul upper bytes⟩

/-! ## Pairs -/

/-- Two digits. -/
def Strict (a b : UInt8) : Bool := isHexDigit a && isHexDigit b

/-- What `strtoul` takes for a byte although it is not two digits: one digit behind a space or
a plus, and a zero behind a minus. -/
def Lax (a b : UInt8) : Bool := (isSpace a || a = 0x2B) && isHexDigit b || a = 0x2D && b = 0x30

def EveryPair (P : UInt8 → UInt8 → Bool) : List UInt8 → Bool
  | a :: b :: s => P a b && EveryPair P s
  | _ => true

/-- Every pair is taken for a byte, and one of them is not two digits. -/
def Loose (s : List UInt8) : Prop :=
  EveryPair (fun a b => Strict a b || Lax a b) s ∧ ¬EveryPair Strict s

variable {a b : UInt8} {s bytes : List UInt8}

/-- A pair is taken for a byte exactly if it is two digits or a lax one. -/
theorem pair_taken_iff (a b : UInt8) :
    ((strtoul16 [a, b]).2 = [] ∧ (strtoul16 [a, b]).1 ≤ 0xFF) ↔ Strict a b ∨ Lax a b := by
  unfold Strict Lax
  cases hb : digitValue b with
  | none =>
    have stops := @strtoul16_stops a b hb
    have low : b ≠ 0x30 := by
      rintro rfl
      cases hb
    simp [stops, isHexDigit, hb, low]
  | some y =>
    have small := digitValue_lt hb
    cases ha : digitValue a with
    | some x =>
      have := digitValue_lt ha
      rw [strtoul16_digits ha hb]
      simp only [isHexDigit, ha, hb]
      constructor
      · exact fun _ => .inl rfl
      · exact fun _ => ⟨trivial, by omega⟩
    | none =>
      by_cases skip : isSpace a ∨ a = 0x2B
      · rw [strtoul16_skip skip hb]
        simp only [isHexDigit, ha, hb]
        constructor
        · exact fun _ => .inr (by simpa using .inl skip)
        · exact fun _ => ⟨trivial, by omega⟩
      · rw [not_or] at skip
        by_cases minus : a = 0x2D
        · subst minus
          rw [strtoul16_minus hb]
          have zero : b = 0x30 ↔ y = 0 := by
            rw [← digitValue_eq_zero_iff, hb]
            simp
          simp only [isHexDigit, ha, zero]
          simp [isSpace]
          omega
        · rw [strtoul16_refuses ha (by simpa using skip.1) minus skip.2]
          simp [isHexDigit, ha, skip.2, minus, by simpa using skip.1]

theorem storePairs_taken (s : List UInt8) :
    (storePairs s).1 = EveryPair (fun a b => Strict a b || Lax a b) s := by
  induction s using storePairs.induct with
  | case1 a b s val endptr parsed refused =>
    have := pair_taken_iff a b
    simp only [storePairs, EveryPair, parsed]
    grind
  | case2 a b s val endptr parsed taken ih =>
    have := pair_taken_iff a b
    simp only [storePairs, EveryPair, parsed]
    grind
  | case3 s short => simp [storePairs, EveryPair]

/-- Pairs of digits are stored as the bytes they stand for. -/
theorem Denotes.stored (h : Denotes s bytes) :
    storePairs s = (true, bytes) ∧ s.length = 2 * bytes.length ∧ EveryPair Strict s := by
  induction h with
  | nil => exact ⟨rfl, rfl, rfl⟩
  | @pair a b x y s bytes high low _ ih =>
    obtain ⟨stored, length, strict⟩ := ih
    have := digitValue_lt high
    have := digitValue_lt low
    have small : ¬x * 16 + y > 0xFF := by omega
    refine ⟨?_, ?_, ?_⟩
    · simp [storePairs, strtoul16_digits high low, small, stored]
    · simp only [List.length_cons, length]
      omega
    · simp [EveryPair, Strict, isHexDigit, high, low, strict]

theorem denotes_of_strict (even : s.length % 2 = 0) (strict : EveryPair Strict s) :
    ∃ bytes, Denotes s bytes := by
  induction s using EveryPair.induct with
  | case1 a b s ih =>
    simp only [EveryPair, Strict, Bool.and_eq_true] at strict
    obtain ⟨⟨high, low⟩, strict⟩ := strict
    obtain ⟨x, high⟩ := isHexDigit_iff.mp high
    obtain ⟨y, low⟩ := isHexDigit_iff.mp low
    rw [List.length_cons, List.length_cons] at even
    obtain ⟨bytes, rest⟩ := ih (by omega) strict
    exact ⟨_, .pair high low rest⟩
  | case2 s short =>
    cases s with
    | nil => exact ⟨[], .nil⟩
    | cons a s =>
      cases s with
      | nil => simp at even
      | cons b s => exact absurd rfl (short a b s)

/-- An `x` is not a digit, so the prefix is none of the pairs. -/
theorem spells_iff (s bytes : List UInt8) : Spells s bytes ↔ Denotes (digitsOf s) bytes := by
  constructor
  · rintro ⟨digits, denotes, rfl | rfl | rfl⟩
    · cases denotes with
      | nil => exact .nil
      | @pair a b x y s bytes high low rest =>
        have lower : b ≠ 0x78 := by
          rintro rfl
          cases low
        have upper : b ≠ 0x58 := by
          rintro rfl
          cases low
        rw [digitsOf, if_neg fun h => h.2.elim lower upper]
        exact .pair high low rest
    · exact denotes
    · exact denotes
  · intro denotes
    refine ⟨_, denotes, ?_⟩
    unfold digitsOf
    split
    next z x s =>
      split
      next marker =>
        obtain ⟨rfl, rfl | rfl⟩ := marker
        · exact .inr (.inl rfl)
        · exact .inr (.inr rfl)
      next => exact .inl rfl
    next => exact .inl rfl

theorem parses_spelled {hexStr : CString} {maxBytes : Nat} (spells : Spells hexStr.chars bytes)
    (fits : bytes.length ≤ maxBytes) :
    hexStringToBytes hexStr maxBytes = (.ok bytes.length, bytes) := by
  obtain ⟨stored, length, -⟩ := ((spells_iff _ _).mp spells).stored
  have half : (digitsOf hexStr.chars).length / 2 = bytes.length := by omega
  have even : (digitsOf hexStr.chars).length % 2 = 0 := by omega
  simp [hexStringToBytes, stored, half, even, Nat.not_lt.mpr fits]

/-- Which strings are accepted. -/
theorem accepted_iff (hexStr : CString) (maxBytes : Nat) :
    (∃ n, (hexStringToBytes hexStr maxBytes).1 = .ok n) ↔
      (digitsOf hexStr.chars).length % 2 = 0 ∧ (digitsOf hexStr.chars).length / 2 ≤ maxBytes ∧
        EveryPair (fun a b => Strict a b || Lax a b) (digitsOf hexStr.chars) := by
  rw [← storePairs_taken]
  simp only [hexStringToBytes]
  split
  · rename_i odd
    simp [odd]
  · rename_i even
    split
    · rename_i long
      have tooMany : ¬(digitsOf hexStr.chars).length / 2 ≤ maxBytes := Nat.not_le.mpr long
      simp [tooMany]
    · rename_i fits
      split <;> simp_all

theorem denotes_print (upper : Bool) (bytes : List UInt8) :
    Denotes (hexDigits upper bytes) bytes := by
  induction bytes with
  | nil => exact .nil
  | cons byte bytes ih =>
    have value : ∀ x, x < 16 → digitValue (hexDigit upper x) = some x := by
      cases upper <;> decide
    have small := byte.toNat_lt
    have whole : byte = UInt8.ofNat (byte.toNat / 16 * 16 + byte.toNat % 16) := by
      rw [Nat.div_add_mod', UInt8.ofNat_toNat]
    have high : byte.toNat / 16 < 16 := by omega
    have low : byte.toNat % 16 < 16 := Nat.mod_lt _ (by decide)
    have pair := Denotes.pair (value _ high) (value _ low) ih
    rwa [← whole] at pair

/-- The parser keeps to the grammar exactly on the strings that are not loose, and reads
every print back. -/
theorem parses_iff (hexStr : CString) (maxBytes : Nat) (upper : Bool) (bytes : List UInt8)
    (room : Nat) :
    (Parses hexStr maxBytes ↔
      ¬((digitsOf hexStr.chars).length % 2 = 0 ∧ (digitsOf hexStr.chars).length / 2 ≤ maxBytes ∧
        Loose (digitsOf hexStr.chars))) ∧
    hexStringToBytes (hexPrint upper bytes) (bytes.length + room) = (.ok bytes.length, bytes) := by
  refine ⟨⟨?_, ?_⟩, ?_⟩
  · rintro parses ⟨even, fits, taken, odd⟩
    obtain ⟨bytes, spells, -⟩ := parses.accepts.mp ((accepted_iff _ _).mpr ⟨even, fits, taken⟩)
    exact odd ((spells_iff _ _).mp spells).stored.2.2
  · intro tight
    refine ⟨⟨?_, ?_⟩, fun _ => parses_spelled⟩
    · intro accepted
      obtain ⟨even, fits, taken⟩ := (accepted_iff _ _).mp accepted
      have strict : EveryPair Strict (digitsOf hexStr.chars) := by
        by_contra odd
        exact tight ⟨even, fits, taken, odd⟩
      obtain ⟨bytes, denotes⟩ := denotes_of_strict even strict
      have length := denotes.stored.2.1
      exact ⟨bytes, (spells_iff _ _).mpr denotes, by omega⟩
    · rintro ⟨bytes, spells, fits⟩
      exact ⟨bytes.length, congrArg Prod.fst (parses_spelled spells fits)⟩
  · exact parses_spelled ⟨_, denotes_print upper bytes, .inl rfl⟩ (Nat.le_add_right _ _)

/-- A space and a digit are taken for a byte. -/
theorem lax_pair_accepted : ¬∀ hexStr maxBytes, Parses hexStr maxBytes := by
  intro parses
  have accepted := (parses ⟨ascii " 1", by decide⟩ 1).accepts.mp ⟨1, rfl⟩
  obtain ⟨bytes, spells, -⟩ := accepted
  have strict := ((spells_iff _ _).mp spells).stored.2.2
  exact absurd strict (by decide)

end Qapp.Demo
