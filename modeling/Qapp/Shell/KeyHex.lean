import Mathlib.Algebra.Ring.Int.Defs
import Qapp.Lib.CString

/-!
# Keys in hexadecimal

`hexstr_to_digits` takes a key with its last byte first, `hexdump` prints it in that
order, and `convert_data_in_hex_to_byte_array` takes a password with its first byte first.
-/

namespace Qapp.Shell
open CString

/-- `hex2digit`, with `none` for `-EINVAL`. -/
def hex2digit (c : UInt8) : Option Nat :=
  if 0x30 ≤ c ∧ c ≤ 0x39 then some (c.toNat - 0x30)
  else if 0x61 ≤ c ∧ c ≤ 0x66 then some (c.toNat - 0x61 + 10)
  else if 0x41 ≤ c ∧ c ≤ 0x46 then some (c.toNat - 0x41 + 10)
  else none

/-- A `uint32_t` that is stored in an `int`. -/
def toInt32 (x : Nat) : Int := if x < 2 ^ 31 then x else (x : Int) - 2 ^ 32

/-- How often a loop runs that counts an `int` down from `len - 1` to 0. -/
def countdown (len : Nat) : Nat := (toInt32 ((len + (2 ^ 32 - 1)) % 2 ^ 32) + 1).toNat

/-- The loop of `hexstr_to_digits`: `i + 1` characters are left, `k` have been taken. -/
def digitsLoop (data : List UInt8) : Nat → Nat → List UInt8 → Bool × List UInt8
  | 0, _, buf => (true, buf)
  | i + 1, k, buf =>
    match hex2digit (data.getD i 0) with
    | none => (false, buf)
    | some t =>
      if k % 2 = 0 then digitsLoop data i (k + 1) (buf.set (k / 2) (UInt8.ofNat t))
      else digitsLoop data i (k + 1)
        (buf.set (k / 2) (UInt8.ofNat ((buf.getD (k / 2) 0).toNat ||| t <<< 4)))

/-- `hexstr_to_digits`: whether it returns 0, and the buffer. -/
def hexstrToDigits (data : CString) (buf : List UInt8) (n : Nat) : Bool × List UInt8 :=
  let len := data.chars.length % 2 ^ 32
  if len ≠ 2 * n % 2 ^ 32 then (false, buf)
  else digitsLoop data.chars (countdown len) 0 buf

def hexDigit (x : Nat) : UInt8 := UInt8.ofNat (if x < 10 then 0x30 + x else 0x57 + x)

/-- `%02x` -/
def print02x (byte : UInt8) : List UInt8 := [hexDigit (byte.toNat / 16), hexDigit (byte.toNat % 16)]

def newline : UInt8 := 0x0A

def hexdumpLoop (buf : List UInt8) : Nat → List UInt8
  | 0 => []
  | i + 1 => print02x (buf.getD i 0) ++ hexdumpLoop buf i

/-- `hexdump`: what it prints. -/
def hexdump (buf : List UInt8) (n : Nat) : List UInt8 :=
  hexdumpLoop buf (countdown n) ++ [newline]

/-- `hex_to_dec_nibble`, with `none` for -1. -/
def hexToDecNibble (c : UInt8) : Option Nat :=
  if c ≥ 0x30 ∧ c ≤ 0x39 then some (c.toNat - 0x30)
  else if c ≥ 0x61 ∧ c ≤ 0x66 then some (c.toNat - 0x61 + 10)
  else if c ≥ 0x41 ∧ c ≤ 0x46 then some (c.toNat - 0x41 + 10)
  else none

/-- The loop of `convert_data_in_hex_to_byte_array`, with the bytes that are left. -/
def convertLoop (data : List UInt8) : Nat → Nat → List UInt8 → Bool × List UInt8
  | 0, _, arr => (true, arr)
  | left + 1, i, arr =>
    match hexToDecNibble (data.getD (2 * i) 0), hexToDecNibble (data.getD (2 * i + 1) 0) with
    | some high, some low =>
      convertLoop data left (i + 1) (arr.set i (UInt8.ofNat (high <<< 4 ||| low)))
    | _, _ => (false, arr)

/-- `convert_data_in_hex_to_byte_array`: whether it returns 0, and the array. -/
def convertDataInHexToByteArray (data : CString) (arr : List UInt8) (size : Nat) :
    Bool × List UInt8 :=
  let len := data.chars.length % 2 ^ 32
  if size > (2 ^ 32 - 1) / 2 then (false, arr)
  else if 2 * size % 2 ^ 32 ≠ len then (false, arr)
  else convertLoop data.chars size 0 arr

/-! ## Pairs of digits -/

def AllHex (s : List UInt8) : Prop := ∀ c ∈ s, isHexDigit c

/-- A character in lower case. -/
def toLower (c : UInt8) : UInt8 := if 0x41 ≤ c ∧ c ≤ 0x5A then c + 0x20 else c

/-- The byte that two digits stand for. -/
def pairByte (a b : UInt8) : UInt8 :=
  UInt8.ofNat ((hex2digit a).getD 0 * 16 + (hex2digit b).getD 0)

/-- The bytes in the order of their digits. -/
def pairBytes : List UInt8 → List UInt8
  | a :: b :: s => pairByte a b :: pairBytes s
  | _ => []

variable {a b c : UInt8} {x y : Nat} {s t rest buf arr bytes : List UInt8}

theorem hex2digit_eq (c : UInt8) : hex2digit c = digitValue c := by
  unfold hex2digit digitValue
  grind [UInt8.le_iff_toNat_le]

theorem hexToDecNibble_eq (c : UInt8) : hexToDecNibble c = hex2digit c := rfl

theorem hex2digit_lt (h : hex2digit c = some x) : x < 16 :=
  digitValue_lt ((hex2digit_eq c).symm.trans h)

theorem isHexDigit_digit : isHexDigit c ↔ ∃ x, hex2digit c = some x := by
  rw [isHexDigit_iff]
  simp only [hex2digit_eq]

theorem or_shift (small : y < 16) : y ||| x <<< 4 = x * 16 + y := by
  have := Nat.shiftLeft_add_eq_or_of_lt (i := 4) small x
  rw [Nat.or_comm, ← this, Nat.shiftLeft_eq]

theorem hex2digit_hexDigit : ∀ x < 16, hex2digit (hexDigit x) = some x := by decide

theorem hexDigit_isHex : ∀ x < 16, isHexDigit (hexDigit x) := by decide

theorem hexDigit_digit (h : hex2digit c = some x) : hexDigit x = toLower c := by
  have small := hex2digit_lt h
  unfold hex2digit at h
  unfold hexDigit toLower
  simp only [UInt8.le_iff_toNat_le] at h ⊢
  apply UInt8.toNat_inj.mp
  split at h
  · cases h
    rw [if_pos (by grind), if_neg (by grind), UInt8.toNat_ofNat']
    grind
  · split at h
    · cases h
      rw [if_neg (by grind), if_neg (by grind), UInt8.toNat_ofNat']
      grind
    · split at h
      · cases h
        rw [if_neg (by grind), if_pos (by grind), UInt8.toNat_add, UInt8.toNat_ofNat']
        grind
      · cases h

/-! ## The parser from the end -/

theorem pairByte_eq (high : hex2digit a = some x) (low : hex2digit b = some y) :
    pairByte a b = UInt8.ofNat (x * 16 + y) := by
  unfold pairByte
  rw [high, low]
  rfl

theorem pairBytes_snoc (even : t.length % 2 = 0) :
    pairBytes (t ++ [a, b]) = pairBytes t ++ [pairByte a b] := by
  induction t using pairBytes.induct with
  | case1 c d t ih =>
    have even : t.length % 2 = 0 := by
      simp only [List.length_cons] at even
      omega
    exact congrArg (pairByte c d :: ·) (ih even)
  | case2 t short =>
    match t with
    | [] => rfl
    | [c] => simp at even
    | c :: d :: t => exact absurd rfl (short c d t)

theorem length_pairBytes (even : s.length % 2 = 0) : 2 * (pairBytes s).length = s.length := by
  induction s using pairBytes.induct with
  | case1 c d s ih =>
    have even : s.length % 2 = 0 := by
      simp only [List.length_cons] at even
      omega
    have := ih even
    simp only [pairBytes, List.length_cons]
    omega
  | case2 s short =>
    match s with
    | [] => rfl
    | [c] => simp at even
    | c :: d :: s => exact absurd rfl (short c d s)

/-- The last pair in front of `rest`: two visits, the first of which sets the byte. -/
theorem digitsLoop_pair (t rest : List UInt8) (j : Nat) (buf : List UInt8) :
    digitsLoop (t ++ a :: b :: rest) (t.length + 1 + 1) (2 * j) buf =
      match hex2digit b, hex2digit a with
      | some y, some x => digitsLoop (t ++ a :: b :: rest) t.length (2 * (j + 1))
          ((buf.set j (UInt8.ofNat y)).set j
            (UInt8.ofNat (((buf.set j (UInt8.ofNat y)).getD j 0).toNat ||| x <<< 4)))
      | some y, none => (false, buf.set j (UInt8.ofNat y))
      | none, _ => (false, buf) := by
  have last : (t ++ a :: b :: rest).getD (t.length + 1) 0 = b := by simp
  have first : (t ++ a :: b :: rest).getD t.length 0 = a := by simp
  have whole : 2 * j / 2 = j := by omega
  have half : (2 * j + 1) / 2 = j := by omega
  rw [digitsLoop, last]
  cases hex2digit b with
  | none => rfl
  | some y =>
    dsimp only
    rw [if_pos (by omega), whole, digitsLoop, first]
    cases hex2digit a with
    | none => rfl
    | some x =>
      dsimp only
      rw [if_neg (by omega), half]
      rfl

theorem ends_in_pair {m : Nat} (length : s.length = 2 * (m + 1)) :
    ∃ t a b, s = t ++ [a, b] ∧ t.length = 2 * m := by
  have split := List.take_append_drop (2 * m) s
  have two : (s.drop (2 * m)).length = 2 := by
    rw [List.length_drop]
    omega
  obtain ⟨a, b, eq⟩ := List.length_eq_two.mp two
  refine ⟨s.take (2 * m), a, b, by rw [← eq, split], ?_⟩
  rw [List.length_take]
  omega

/-- What is set at last is the byte of the two digits. -/
theorem set_pair {j : Nat} (inside : j < buf.length) (high : hex2digit a = some x)
    (low : hex2digit b = some y) :
    (buf.set j (UInt8.ofNat y)).set j
      (UInt8.ofNat (((buf.set j (UInt8.ofNat y)).getD j 0).toNat ||| x <<< 4)) =
        buf.set j (pairByte a b) := by
  have small := hex2digit_lt low
  have held : ((buf.set j (UInt8.ofNat y)).getD j 0).toNat = y := by
    rw [List.getD_eq_getElem?_getD, List.getElem?_set_self inside, Option.getD_some,
      UInt8.toNat_ofNat']
    omega
  rw [List.set_set, held, or_shift small, pairByte_eq high low]

/-- From `2 * m` characters, behind `j` bytes that are there: the bytes of the characters,
the last one first. -/
theorem digitsLoop_hex {m j : Nat} (length : s.length = 2 * m) (size : buf.length = j + m)
    (hex : AllHex s) :
    digitsLoop (s ++ rest) (2 * m) (2 * j) buf =
      (true, buf.take j ++ (pairBytes s).reverse) := by
  induction m generalizing s rest j buf with
  | zero =>
    obtain rfl := List.length_eq_zero_iff.mp length
    rw [List.take_of_length_le (by omega)]
    simp [digitsLoop, pairBytes]
  | succ m ih =>
    obtain ⟨t, a, b, rfl, count⟩ := ends_in_pair length
    obtain ⟨x, high⟩ := isHexDigit_digit.mp (hex a (by simp))
    obtain ⟨y, low⟩ := isHexDigit_digit.mp (hex b (by simp))
    have pair := @digitsLoop_pair a b t rest j buf
    rw [high, low] at pair
    dsimp only at pair
    rw [set_pair (by omega) high low] at pair
    have shape : t ++ [a, b] ++ rest = t ++ a :: b :: rest := by simp
    have number : 2 * (m + 1) = t.length + 1 + 1 := by omega
    rw [shape, number, pair, count, ih count (by rw [List.length_set]; omega)
      fun c mem => hex c (List.mem_append_left _ mem)]
    have step : (buf.set j (pairByte a b)).take (j + 1) = buf.take j ++ [pairByte a b] := by
      rw [List.take_add_one, List.take_set_of_le (Nat.le_refl j),
        List.getElem?_set_self (by omega)]
      rfl
    rw [step, pairBytes_snoc (by omega), List.reverse_append]
    simp

/-- Only digits are taken. -/
theorem digitsLoop_true {m j : Nat} (length : s.length = 2 * m)
    (taken : (digitsLoop (s ++ rest) (2 * m) (2 * j) buf).1 = true) : AllHex s := by
  induction m generalizing s rest j buf with
  | zero =>
    obtain rfl := List.length_eq_zero_iff.mp length
    intro c mem
    cases mem
  | succ m ih =>
    obtain ⟨t, a, b, rfl, count⟩ := ends_in_pair length
    have shape : t ++ [a, b] ++ rest = t ++ a :: b :: rest := by simp
    have number : 2 * (m + 1) = t.length + 1 + 1 := by omega
    rw [shape, number, digitsLoop_pair] at taken
    cases low : hex2digit b with
    | none =>
      rw [low] at taken
      cases taken
    | some y =>
      cases high : hex2digit a with
      | none =>
        rw [low, high] at taken
        cases taken
      | some x =>
        rw [low, high] at taken
        dsimp only at taken
        rw [count] at taken
        have before := ih count taken
        intro c mem
        simp only [List.mem_append, List.mem_cons, List.not_mem_nil, or_false] at mem
        rcases mem with mem | rfl | rfl
        · exact before c mem
        · exact isHexDigit_digit.mpr ⟨x, high⟩
        · exact isHexDigit_digit.mpr ⟨y, low⟩

/-! ## The printer, and the parser from the front -/

def hexPrint (bytes : List UInt8) : List UInt8 := bytes.flatMap print02x

theorem hexdumpLoop_eq {m : Nat} (le : m ≤ buf.length) :
    hexdumpLoop buf m = hexPrint (buf.take m).reverse := by
  induction m with
  | zero => rfl
  | succ m ih =>
    have lt : m < buf.length := le
    rw [hexdumpLoop, ih (by omega), List.take_add_one, List.getD_eq_getElem?_getD,
      List.getElem?_eq_getElem lt, List.reverse_append]
    rfl

theorem length_hexPrint (bytes : List UInt8) : (hexPrint bytes).length = 2 * bytes.length := by
  induction bytes with
  | nil => rfl
  | cons byte bytes ih =>
    change (print02x byte ++ hexPrint bytes).length = _
    rw [List.length_append, ih, List.length_cons]
    change 2 + _ = _
    omega

theorem hexPrint_hex (bytes : List UInt8) : AllHex (hexPrint bytes) := by
  intro c mem
  obtain ⟨byte, -, mem⟩ := List.mem_flatMap.mp mem
  have small := byte.toNat_lt
  rcases List.mem_pair.mp mem with rfl | rfl
  · exact hexDigit_isHex _ (by omega)
  · exact hexDigit_isHex _ (by omega)

/-- What was printed is read back. -/
theorem pairBytes_hexPrint (bytes : List UInt8) : pairBytes (hexPrint bytes) = bytes := by
  induction bytes with
  | nil => rfl
  | cons byte bytes ih =>
    have small := byte.toNat_lt
    have high := hex2digit_hexDigit (byte.toNat / 16) (by omega)
    have low := hex2digit_hexDigit (byte.toNat % 16) (by omega)
    change pairByte _ _ :: pairBytes (hexPrint bytes) = _
    rw [ih, pairByte_eq high low, Nat.div_add_mod', UInt8.ofNat_toNat]

theorem print_pairByte (high : hex2digit a = some x) (low : hex2digit b = some y) :
    print02x (pairByte a b) = [toLower a, toLower b] := by
  have small := hex2digit_lt high
  have small' := hex2digit_lt low
  have value : (pairByte a b).toNat = x * 16 + y := by
    rw [pairByte_eq high low, UInt8.toNat_ofNat']
    omega
  unfold print02x
  rw [value, ← hexDigit_digit high, ← hexDigit_digit low]
  congr 2
  · omega
  · congr 2
    omega

/-- What was read is printed in lower case. -/
theorem hexPrint_pairBytes (even : s.length % 2 = 0) (hex : AllHex s) :
    hexPrint (pairBytes s) = s.map toLower := by
  induction s using pairBytes.induct with
  | case1 a b s ih =>
    obtain ⟨x, high⟩ := isHexDigit_digit.mp (hex a (by simp))
    obtain ⟨y, low⟩ := isHexDigit_digit.mp (hex b (by simp))
    have even : s.length % 2 = 0 := by
      simp only [List.length_cons] at even
      omega
    have rest := ih even fun c mem => hex c (by simp [mem])
    change print02x (pairByte a b) ++ hexPrint (pairBytes s) = _
    rw [print_pairByte high low, rest]
    rfl
  | case2 s short =>
    match s with
    | [] => rfl
    | [c] => simp at even
    | c :: d :: s => exact absurd rfl (short c d s)

theorem convertLoop_hex {i m : Nat} {front : List UInt8} (before : front.length = 2 * i)
    (length : s.length = 2 * m) (size : arr.length = i + m) (hex : AllHex s) :
    convertLoop (front ++ s) m i arr = (true, arr.take i ++ pairBytes s) := by
  induction m generalizing front s i arr with
  | zero =>
    obtain rfl := List.length_eq_zero_iff.mp length
    rw [List.take_of_length_le (by omega)]
    simp [convertLoop, pairBytes]
  | succ m ih =>
    match s with
    | [] => simp at length
    | [c] =>
      simp only [List.length_singleton] at length
      omega
    | a :: b :: s =>
      obtain ⟨x, high⟩ := isHexDigit_digit.mp (hex a (by simp))
      obtain ⟨y, low⟩ := isHexDigit_digit.mp (hex b (by simp))
      have first : (front ++ a :: b :: s).getD (2 * i) 0 = a := by simp [← before]
      have second : (front ++ a :: b :: s).getD (2 * i + 1) 0 = b := by simp [← before]
      have small := hex2digit_lt low
      have shape : front ++ a :: b :: s = front ++ [a, b] ++ s := by simp
      have byte : UInt8.ofNat (x <<< 4 ||| y) = pairByte a b := by
        rw [Nat.or_comm, or_shift small, pairByte_eq high low]
      rw [convertLoop, first, second, hexToDecNibble_eq, hexToDecNibble_eq, high, low]
      dsimp only
      rw [byte, shape, ih (by simp [before]; omega)
        (by simp only [List.length_cons] at length; omega) (by rw [List.length_set]; omega)
        fun c mem => hex c (by simp [mem])]
      have step : (arr.set i (pairByte a b)).take (i + 1) = arr.take i ++ [pairByte a b] := by
        rw [List.take_add_one, List.take_set_of_le (Nat.le_refl i),
          List.getElem?_set_self (by omega)]
        rfl
      rw [step]
      simp [pairBytes]

/-! ## The codec -/

/-- An `int` counts down over all of a length up to 2^31. -/
theorem countdown_short {len : Nat} (short : len ≤ 2 ^ 31) : countdown len = len := by
  unfold countdown toInt32
  rcases Nat.eq_zero_or_pos len with rfl | pos
  · rw [if_neg (by omega)]
    omega
  · rw [if_pos (by omega)]
    omega

theorem countdown_long {len : Nat} (long : 2 ^ 31 < len) (lt : len < 2 ^ 32) :
    countdown len = 0 := by
  unfold countdown toInt32
  rw [if_neg (by omega)]
  omega

theorem hexdump_eq {n : Nat} (size : bytes.length = n) (short : n < 2 ^ 31) :
    hexdump bytes n = hexPrint bytes.reverse ++ [newline] := by
  unfold hexdump
  rw [countdown_short (by omega), hexdumpLoop_eq (by omega), List.take_of_length_le (by omega)]

/-- What the four functions are to each other on `s`, with buffers of `n` bytes. -/
structure KeyCodec (s : CString) (n : Nat) : Prop where
  accepts : ∀ buf : List UInt8, buf.length = n →
    ((hexstrToDigits s buf n).1 = true ↔ s.chars.length = 2 * n ∧ AllHex s.chars)
  prints : ∀ buf : List UInt8, buf.length = n → (hexstrToDigits s buf n).1 = true →
    hexdump (hexstrToDigits s buf n).2 n = s.chars.map toLower ++ [newline]
  parses : ∀ bytes buf : List UInt8, bytes.length = n → buf.length = n →
    ∀ text : CString, hexdump bytes n = text.chars ++ [newline] →
      hexstrToDigits text buf n = (true, bytes)
  reversed : ∀ buf arr : List UInt8, buf.length = n → arr.length = n →
    (hexstrToDigits s buf n).1 = true →
      convertDataInHexToByteArray s arr n = (true, (hexstrToDigits s buf n).2.reverse)

/-- The length is cut to 32 bits, and the characters that are looked at are digits. -/
def Wraps (s : List UInt8) (n : Nat) : Prop :=
  2 ^ 32 ≤ s.length ∧ s.length % 2 ^ 32 = 2 * n ∧ AllHex (s.take (2 * n))

section codec
variable {str : CString} {n : Nat}

/-- A string that an `int` can count is parsed from its end. -/
theorem hexstrToDigits_hex (short : n ≤ 2 ^ 30) (length : str.chars.length % 2 ^ 32 = 2 * n)
    (size : buf.length = n) (hex : AllHex (str.chars.take (2 * n))) :
    hexstrToDigits str buf n = (true, (pairBytes (str.chars.take (2 * n))).reverse) := by
  have count : (str.chars.take (2 * n)).length = 2 * n := by
    rw [List.length_take]
    omega
  have loop := @digitsLoop_hex _ (str.chars.drop (2 * n)) buf n 0 count (by omega) hex
  rw [List.take_append_drop] at loop
  unfold hexstrToDigits
  dsimp only
  rw [if_neg (by omega), length, countdown_short (by omega), loop]
  rfl

theorem hexstrToDigits_true (short : n ≤ 2 ^ 30) (taken : (hexstrToDigits str buf n).1 = true) :
    str.chars.length % 2 ^ 32 = 2 * n ∧ AllHex (str.chars.take (2 * n)) := by
  unfold hexstrToDigits at taken
  dsimp only at taken
  split at taken
  · cases taken
  · rename_i same
    have length : str.chars.length % 2 ^ 32 = 2 * n := by omega
    have count : (str.chars.take (2 * n)).length = 2 * n := by
      rw [List.length_take]
      omega
    rw [length, countdown_short (by omega), ← List.take_append_drop (2 * n) str.chars] at taken
    exact ⟨length, digitsLoop_true (j := 0) count taken⟩

/-- Beyond the range of an `int` nothing is looked at. -/
theorem hexstrToDigits_long (long : 2 ^ 30 < n) (lt : n < 2 ^ 31)
    (length : str.chars.length % 2 ^ 32 = 2 * n) : hexstrToDigits str buf n = (true, buf) := by
  unfold hexstrToDigits
  dsimp only
  rw [if_neg (by omega), length, countdown_long (by omega) (by omega)]
  rfl

theorem convert_hex (lt : n < 2 ^ 31) (length : str.chars.length = 2 * n) (size : arr.length = n)
    (hex : AllHex str.chars) :
    convertDataInHexToByteArray str arr n = (true, pairBytes str.chars) := by
  have loop := @convertLoop_hex str.chars arr 0 n [] rfl length (by omega) hex
  unfold convertDataInHexToByteArray
  dsimp only
  rw [if_neg (by omega), if_neg (by omega)]
  exact loop

theorem hexPrint_noNul (bytes : List UInt8) : 0 ∉ hexPrint bytes := by
  intro mem
  have := hexPrint_hex bytes 0 mem
  cases this

theorem KeyCodec.short (codec : KeyCodec str n) (lt : n < 2 ^ 31) : n ≤ 2 ^ 30 := by
  by_contra long
  -- the print of zeros leaves a buffer of ones as it is
  have zeros : (List.replicate n (0 : UInt8)).length = n := List.length_replicate
  have ones : (List.replicate n (1 : UInt8)).length = n := List.length_replicate
  have parsed := codec.parses _ _ zeros ones
    ⟨hexPrint (List.replicate n 0).reverse, hexPrint_noNul _⟩ (hexdump_eq zeros lt)
  rw [hexstrToDigits_long (by omega) lt (by
    rw [length_hexPrint, List.length_reverse, zeros]
    omega)] at parsed
  have same := congrArg (List.getD · 0 5) (Prod.mk.inj parsed).2
  simp only [List.getD_eq_getElem?_getD] at same
  rw [List.getElem?_replicate_of_lt (by omega), List.getElem?_replicate_of_lt (by omega)] at same
  cases same

theorem KeyCodec.not_wraps (codec : KeyCodec str n) (lt : n < 2 ^ 31) : ¬Wraps str.chars n := by
  rintro ⟨long, length, hex⟩
  have size : (List.replicate n (0 : UInt8)).length = n := List.length_replicate
  have taken := hexstrToDigits_hex (codec.short lt) length size hex
  have exact_ := ((codec.accepts _ size).mp (by rw [taken])).1
  omega

/-- On buffers of less than 2^31 bytes the key functions are inverse to each other exactly if
an `int` can count the digits and no length is cut to 32 bits. -/
theorem keyCodec_iff (str : CString) (n : Nat) (lt : n < 2 ^ 31) :
    KeyCodec str n ↔ n ≤ 2 ^ 30 ∧ ¬Wraps str.chars n := by
  constructor
  · exact fun codec => ⟨codec.short lt, codec.not_wraps lt⟩
  rintro ⟨short, fits⟩
  have accepted : ∀ buf : List UInt8, (hexstrToDigits str buf n).1 = true →
      str.chars.length = 2 * n ∧ AllHex str.chars := by
    intro buf taken
    obtain ⟨length, hex⟩ := hexstrToDigits_true short taken
    have length : str.chars.length = 2 * n := by
      by_contra no
      exact fits ⟨by omega, length, hex⟩
    rw [List.take_of_length_le (by omega)] at hex
    exact ⟨length, hex⟩
  have parsed : ∀ (text : CString) (buf : List UInt8), buf.length = n →
      text.chars.length = 2 * n → AllHex text.chars →
        hexstrToDigits text buf n = (true, (pairBytes text.chars).reverse) := by
    intro text buf size length hex
    have whole : text.chars.take (2 * n) = text.chars := List.take_of_length_le (by omega)
    have := hexstrToDigits_hex short (by omega) size (whole.symm ▸ hex)
    rwa [whole] at this
  constructor
  · intro buf size
    constructor
    · exact accepted buf
    · rintro ⟨length, hex⟩
      rw [parsed str buf size length hex]
  · intro buf size taken
    obtain ⟨length, hex⟩ := accepted buf taken
    have count := @length_pairBytes str.chars (by omega)
    rw [parsed str buf size length hex,
      hexdump_eq (by rw [List.length_reverse]; omega) lt, List.reverse_reverse,
      hexPrint_pairBytes (by omega) hex]
  · intro bytes buf size size' text printed
    rw [hexdump_eq size lt] at printed
    have chars := List.append_cancel_right printed
    have length := length_hexPrint bytes.reverse
    rw [List.length_reverse, size] at length
    rw [parsed text buf size' (chars ▸ length) (chars ▸ hexPrint_hex _), ← chars,
      pairBytes_hexPrint, List.reverse_reverse]
  · intro buf arr size size' taken
    obtain ⟨length, hex⟩ := accepted buf taken
    rw [convert_hex lt length size' hex, parsed str buf size length hex, List.reverse_reverse]

/-- Keys are at most as long as an `int` can count, and strings as a `uint32_t` can. -/
theorem keys_coded (str : CString) (n : Nat) (short : n ≤ 2 ^ 30)
    (fits : str.chars.length < 2 ^ 32) : KeyCodec str n := by
  refine (keyCodec_iff str n (by omega)).mpr ⟨short, ?_⟩
  rintro ⟨long, -⟩
  exact Nat.not_lt.mpr long fits

end codec

/-- The key 0aF3. -/
theorem keys_coded_two : KeyCodec ⟨ascii "0aF3", by decide⟩ 2 :=
  keys_coded _ 2 (by decide) (by decide)

/-- The letter z, 2^31 + 2 times. -/
def noDigits : CString where
  chars := List.replicate (2 ^ 31 + 2) 0x7A
  noNul := by
    intro mem
    cases List.eq_of_mem_replicate mem

/-- A string without a single digit is accepted. -/
theorem noDigits_accepted : ¬KeyCodec noDigits (2 ^ 30 + 1) := by
  intro codec
  have length : noDigits.chars.length = 2 * (2 ^ 30 + 1) := List.length_replicate
  have size : (List.replicate (2 ^ 30 + 1) (0 : UInt8)).length = 2 ^ 30 + 1 :=
    List.length_replicate
  have taken : hexstrToDigits noDigits (List.replicate (2 ^ 30 + 1) 0) (2 ^ 30 + 1) =
      (true, List.replicate (2 ^ 30 + 1) 0) :=
    hexstrToDigits_long (by decide) (by decide) (by omega)
  have hex := ((codec.accepts _ size).mp (by rw [taken])).2
  have z := hex 0x7A (List.mem_replicate.mpr ⟨by decide, rfl⟩)
  cases z

end Qapp.Shell
