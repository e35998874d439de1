import Mathlib.Algebra.Group.Nat.Defs
import Mathlib.Data.List.Basic

/-!
# C strings

Strings of bytes, and what `strtoul` takes from the front of one in base 16.
-/

/-- The characters in front of the terminator. -/
structure CString where
  chars : List UInt8
  noNul : 0 ∉ chars
  deriving DecidableEq

namespace CString

/-- The bytes of a text in ASCII. -/
def ascii (text : String) : List UInt8 := text.toList.map Char.toUInt8

/-- `isspace`, in the C locale. -/
def isSpace (c : UInt8) : Bool := c = 0x20 || 0x09 ≤ c && c ≤ 0x0D

/-- What a hexadecimal digit stands for. -/
def digitValue (c : UInt8) : Option Nat :=
  if 0x30 ≤ c ∧ c ≤ 0x39 then some (c.toNat - 0x30)
  else if 0x41 ≤ c ∧ c ≤ 0x46 then some (c.toNat - 0x41 + 10)
  else if 0x61 ≤ c ∧ c ≤ 0x66 then some (c.toNat - 0x61 + 10)
  else none

def isHexDigit (c : UInt8) : Bool := (digitValue c).isSome

/-- The number that the digits at the front stand for, and what follows them. -/
def readDigits (value : Nat) : List UInt8 → Nat × List UInt8
  | [] => (value, [])
  | c :: s =>
    match digitValue c with
    | some d => readDigits (value * 16 + d) s
    | none => (value, c :: s)

/-- An optional sign, `true` for a minus. -/
def readSign : List UInt8 → Bool × List UInt8
  | [] => (false, [])
  | c :: s => if c = 0x2D then (true, s) else if c = 0x2B then (false, s) else (false, c :: s)

/-- `0x` or `0X` belongs to the number if a digit follows. -/
def skipPrefix : List UInt8 → List UInt8
  | z :: x :: d :: s =>
    if z = 0x30 ∧ (x = 0x78 ∨ x = 0x58) ∧ isHexDigit d then d :: s else z :: x :: d :: s
  | s => s

/-- `ULONG_MAX` of a 32-bit target. -/
def ulongMax : Nat := 2 ^ 32 - 1

/-- `strtoul(s, &endptr, 16)`: the value, and the rest of the string from `endptr` on. A
negative number is taken modulo 2^32; without digits nothing is consumed. -/
def strtoul16 (s : List UInt8) : Nat × List UInt8 :=
  let (negative, t) := readSign (s.dropWhile isSpace)
  let t := skipPrefix t
  if (t.head?.bind digitValue).isSome then
    let (value, rest) := readDigits 0 t
    if value > ulongMax then (ulongMax, rest)
    else if negative then ((2 ^ 32 - value) % 2 ^ 32, rest)
    else (value, rest)
  else (0, s)

/-! ## Two characters -/

variable {a b : UInt8} {x y : Nat}

attribute [local simp] strtoul16 readSign skipPrefix readDigits

theorem digitValue_lt (h : digitValue a = some x) : x < 16 := by
  unfold digitValue at h
  grind [UInt8.le_iff_toNat_le]

theorem digitValue_not_space (h : digitValue a = some x) : isSpace a = false := by
  unfold digitValue at h
  unfold isSpace
  grind

theorem digitValue_not_sign (h : digitValue a = some x) : a ≠ 0x2D ∧ a ≠ 0x2B := by
  unfold digitValue at h
  grind

theorem digitValue_eq_zero_iff : digitValue a = some 0 ↔ a = 0x30 := by
  constructor
  · intro h
    unfold digitValue at h
    apply UInt8.toNat_inj.mp
    change a.toNat = 48
    grind [UInt8.le_iff_toNat_le]
  · rintro rfl
    rfl

theorem isHexDigit_iff : isHexDigit a ↔ ∃ x, digitValue a = some x := Option.isSome_iff_exists

theorem strtoul16_digits (ha : digitValue a = some x) (hb : digitValue b = some y) :
    strtoul16 [a, b] = (x * 16 + y, []) := by
  have small : x * 16 + y ≤ ulongMax := by
    have := digitValue_lt ha
    have := digitValue_lt hb
    have : 255 ≤ ulongMax := by decide
    omega
  have sign := digitValue_not_sign ha
  simp [digitValue_not_space ha, sign.1, sign.2, ha, hb, Nat.not_lt.mpr small]

/-- One character that is skipped, and a digit. -/
theorem strtoul16_skip (skip : isSpace a ∨ a = 0x2B) (hb : digitValue b = some y) :
    strtoul16 [a, b] = (y, []) := by
  have small : y ≤ ulongMax := by
    have := digitValue_lt hb
    have : 16 ≤ ulongMax := by decide
    omega
  have space := digitValue_not_space hb
  have sign := digitValue_not_sign hb
  obtain skip | rfl := skip
  · simp [skip, space, sign.1, sign.2, hb, Nat.not_lt.mpr small]
  · simp [isSpace, hb, Nat.not_lt.mpr small]

theorem strtoul16_minus (hb : digitValue b = some y) :
    strtoul16 [0x2D, b] = ((2 ^ 32 - y) % 2 ^ 32, []) := by
  have small : y ≤ ulongMax := by
    have := digitValue_lt hb
    have : 16 ≤ ulongMax := by decide
    omega
  simp [isSpace, hb, Nat.not_lt.mpr small]

theorem strtoul16_refuses (digit : digitValue a = none) (space : isSpace a = false)
    (minus : a ≠ 0x2D) (plus : a ≠ 0x2B) : strtoul16 [a, b] = (0, [a, b]) := by
  simp [space, minus, plus, digit]

/-- Whatever is skipped, the character behind it is not a digit. -/
theorem strtoul16_stops (hb : digitValue b = none) : (strtoul16 [a, b]).2 ≠ [] := by
  unfold strtoul16
  grind [readSign, skipPrefix, readDigits, List.dropWhile]

end CString
