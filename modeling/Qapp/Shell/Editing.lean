import Mathlib.Data.List.Induction
import Qapp.Shell.Console

/-!
# Line editing

What the line is after backspaces, and what the buffer still holds of it.
-/

namespace Qapp.Shell

/-- The line so far, and the most characters it has had. -/
structure Line where
  text : List UInt8
  peak : Nat

/-- A carriage return begins a new line, a backspace deletes the last character. -/
def Line.edit (l : Line) (c : UInt8) : Line :=
  if c = 0x0D then ⟨[], 0⟩
  else if c = 0x08 then ⟨l.text.dropLast, l.peak⟩
  else ⟨l.text ++ [c], max l.peak (l.text.length + 1)⟩

def lineAfter (chars : List UInt8) : Line := chars.foldl Line.edit ⟨[], 0⟩

/-- Printable characters, backspaces and carriage returns, and no line as long as the buffer. -/
structure Typed (chars : List UInt8) : Prop where
  keys : ∀ c ∈ chars, c = 0x0D ∨ c = 0x08 ∨ 0x20 ≤ c ∧ c ≤ 0x7E
  short : ∀ past, past <+: chars → (lineAfter past).text.length < bufferSize

/-- Each carriage return hands over the line. -/
def HandsLines (names : List CString) (chars : List UInt8) : Prop :=
  ∀ past, past ++ [0x0D] <+: chars →
    (cmdShellCharReceived names (shellAfter names past) 0x0D).handed = some (lineAfter past).text

/-- At each carriage return the line is as long as it has ever been: whatever was deleted
has been typed over. -/
def TypedOver (chars : List UInt8) : Prop :=
  ∀ past, past ++ [0x0D] <+: chars → (lineAfter past).peak = (lineAfter past).text.length

theorem lineAfter_snoc (past : List UInt8) (c : UInt8) :
    lineAfter (past ++ [c]) = (lineAfter past).edit c := by
  rw [lineAfter, List.foldl_append]
  rfl

/-- The buffer holds the line, what has been deleted from it and not typed over, and zeros. -/
structure Tracks (l : Line) (s : ShellState) : Prop where
  pos : s.pos = l.text.length
  holds : ∃ stale, s.buf = l.text ++ (stale ++ List.replicate (bufferSize - l.peak) 0) ∧
    l.text.length + stale.length = l.peak ∧ ∀ c ∈ l.text ++ stale, c ≠ 0
  short : l.peak < bufferSize

variable {names : List CString} {l : Line} {s : ShellState} {c : UInt8}

theorem tracks_start : Tracks ⟨[], 0⟩ start := by
  constructor
  · rfl
  · exact ⟨[], rfl, rfl, nofun⟩
  · decide

theorem set_at_end (text rest : List UInt8) (d c : UInt8) :
    (text ++ d :: rest).set text.length c = (text ++ [c]) ++ rest := by
  rw [List.set_append_right _ _ (Nat.le_refl _), Nat.sub_self, List.set_cons_zero,
    List.append_assoc]
  rfl

/-- A character goes behind the line, over the first that has been deleted. -/
theorem Tracks.insert (tracks : Tracks l s) (nonzero : c ≠ 0) (enter : c ≠ 0x0D) (back : c ≠ 0x08)
    (short : l.text.length + 1 < bufferSize) :
    Tracks (l.edit c) (cmdShellCharReceived names s c).shell := by
  obtain ⟨pos, ⟨stale, buf, peak, nonzeros⟩, below⟩ := tracks
  have room : s.pos < bufferSize := by omega
  rw [Line.edit, if_neg enter, if_neg back, cmdShellCharReceived, if_neg enter, if_neg back,
    if_pos room]
  constructor
  · simp [pos]
  · cases stale with
    | nil =>
      have even : l.peak = l.text.length := peak.symm
      have zeros : bufferSize - l.peak = (bufferSize - (l.peak + 1)) + 1 := by omega
      refine ⟨[], ?_, ?_, ?_⟩
      · dsimp only
        rw [buf, pos, zeros, List.nil_append, List.replicate_succ, set_at_end, ← even,
          Nat.max_eq_right (Nat.le_succ _), List.nil_append]
      · dsimp only
        rw [List.length_append, ← even, Nat.max_eq_right (Nat.le_succ _)]
        rfl
      · simpa [nonzero, or_imp, forall_and] using nonzeros
    | cons d stale =>
      have longer : l.text.length + 1 ≤ l.peak := by
        rw [List.length_cons] at peak
        omega
      refine ⟨stale, ?_, ?_, ?_⟩
      · dsimp only
        rw [buf, pos, List.cons_append, set_at_end, Nat.max_eq_left longer]
      · dsimp only
        rw [List.length_append, Nat.max_eq_left longer, ← peak, List.length_cons]
        simp only [List.length_cons, List.length_nil]
        omega
      · intro x mem
        rw [List.append_assoc, List.mem_append, List.singleton_append, List.mem_cons] at mem
        obtain old | rfl | old := mem
        · exact nonzeros x (List.mem_append_left _ old)
        · exact nonzero
        · exact nonzeros x (List.mem_append_right _ (.tail _ old))
  · exact Nat.max_lt.mpr ⟨below, short⟩

/-- A backspace leaves the character where it was. -/
theorem Tracks.delete (tracks : Tracks l s) :
    Tracks (l.edit 0x08) (cmdShellCharReceived names s 0x08).shell := by
  obtain ⟨pos, ⟨stale, buf, peak, nonzeros⟩, below⟩ := tracks
  rw [Line.edit, if_neg (by decide), if_pos rfl, cmdShellCharReceived, if_neg (by decide),
    if_pos rfl]
  obtain ⟨text, top⟩ := l
  dsimp only at pos buf peak nonzeros below ⊢
  induction text using List.reverseRecOn with
  | nil =>
    rw [if_neg (by rw [pos]; decide)]
    exact ⟨pos, ⟨stale, buf, peak, nonzeros⟩, below⟩
  | append_singleton text d =>
    have length : (text ++ [d]).length = text.length + 1 := by simp
    rw [length] at pos peak
    rw [if_pos (by rw [pos]; exact Nat.succ_pos _), List.dropLast_concat]
    constructor
    · exact congrArg (· - 1) pos
    · refine ⟨d :: stale, ?_, ?_, ?_⟩
      · rw [buf, List.append_assoc]
        rfl
      · rw [List.length_cons, ← peak]
        dsimp only
        omega
      · rw [List.append_assoc] at nonzeros
        exact nonzeros
    · exact below

theorem Tracks.react (tracks : Tracks l s) (key : c = 0x0D ∨ c = 0x08 ∨ 0x20 ≤ c ∧ c ≤ 0x7E)
    (short : (l.edit c).text.length < bufferSize) :
    Tracks (l.edit c) (cmdShellCharReceived names s c).shell := by
  obtain rfl | rfl | printable := key
  · exact tracks_start
  · exact tracks.delete
  · have nonzero : c ≠ 0 ∧ c ≠ 0x0D ∧ c ≠ 0x08 := by grind
    obtain ⟨nonzero, enter, back⟩ := nonzero
    rw [Line.edit, if_neg enter, if_neg back, List.length_append] at short
    exact tracks.insert nonzero enter back short

theorem Typed.past {past chars : List UInt8} (typed : Typed chars) (le : past <+: chars) :
    Typed past :=
  ⟨fun c mem => typed.keys c (le.subset mem), fun earlier h => typed.short earlier (h.trans le)⟩

theorem typed_tracks {chars : List UInt8} (typed : Typed chars) :
    Tracks (lineAfter chars) (shellAfter names chars) := by
  induction chars using List.reverseRecOn with
  | nil => exact tracks_start
  | append_singleton past c ih =>
    have before := ih (typed.past (List.prefix_append past [c]))
    have short := typed.short _ (List.prefix_refl _)
    rw [lineAfter_snoc] at short
    rw [lineAfter_snoc, shellAfter_snoc]
    exact before.react (typed.keys c (by simp)) short

theorem takeWhile_zeros {text : List UInt8} (nonzeros : ∀ c ∈ text, c ≠ 0) (n : Nat) :
    (text ++ List.replicate n 0).takeWhile (· ≠ 0) = text := by
  induction text with
  | nil => cases n <;> simp [List.replicate_succ]
  | cons c text ih =>
    obtain ⟨first, later⟩ := List.forall_mem_cons.mp nonzeros
    rw [List.cons_append, List.takeWhile_cons_of_pos (by simpa using first), ih later]

/-- What is handed over ends at the first zero, behind the deleted characters. -/
theorem Tracks.handed_iff (tracks : Tracks l s) :
    (cmdShellCharReceived names s 0x0D).handed = some l.text ↔ l.peak = l.text.length := by
  obtain ⟨-, ⟨stale, buf, peak, nonzeros⟩, -⟩ := tracks
  change some (s.buf.takeWhile (· ≠ 0)) = some l.text ↔ _
  rw [buf, ← List.append_assoc, takeWhile_zeros nonzeros, Option.some.injEq, ← peak]
  constructor
  · intro same
    have length := congrArg List.length same
    rw [List.length_append] at length
    exact length
  · intro none
    rw [List.length_eq_zero_iff.mp (by omega : stale.length = 0), List.append_nil]

/-- Each carriage return hands over the line as it was edited exactly if, at each, whatever
was deleted has been typed over. -/
theorem hands_lines_iff (names : List CString) {chars : List UInt8} (typed : Typed chars) :
    HandsLines names chars ↔ TypedOver chars := by
  have tracks {past : List UInt8} (le : past ++ [0x0D] <+: chars) :
      Tracks (lineAfter past) (shellAfter names past) :=
    typed_tracks (typed.past ((List.prefix_append past [0x0D]).trans le))
  constructor
  · exact fun hands past le => (tracks le).handed_iff.mp (hands past le)
  · exact fun typedOver past le => (tracks le).handed_iff.mpr (typedOver past le)

theorem lineAfter_length (chars : List UInt8) : (lineAfter chars).text.length ≤ chars.length := by
  induction chars using List.reverseRecOn with
  | nil => exact Nat.le_refl 0
  | append_singleton past c ih =>
    rw [lineAfter_snoc, Line.edit, List.length_append]
    split
    · exact Nat.zero_le _
    · split
      · rw [List.length_dropLast]
        omega
      · rw [List.length_append]
        exact Nat.add_le_add_right ih _

theorem typed_of_keys {chars : List UInt8}
    (keys : chars.all fun c => c = 0x0D || c = 0x08 || 0x20 ≤ c && c ≤ 0x7E)
    (short : chars.length < bufferSize) : Typed chars := by
  constructor
  · simpa [List.all_eq_true, or_assoc] using keys
  · intro past le
    have := lineAfter_length past
    have := le.length_le
    omega

/-- A deleted character that is typed over. -/
theorem hands_lines_at : HandsLines [] [0x61, 0x62, 0x08, 0x63, 0x0D] ↔
    TypedOver [0x61, 0x62, 0x08, 0x63, 0x0D] :=
  hands_lines_iff [] (typed_of_keys (by decide) (by decide))

/-- A deleted character at the end of the line is handed over with it. -/
theorem deleted_handed : ¬∀ names chars, Typed chars → HandsLines names chars := by
  intro hands
  have typed : Typed [0x61, 0x62, 0x08, 0x0D] := typed_of_keys (by decide) (by decide)
  have handed := hands [] _ typed [0x61, 0x62, 0x08] (List.prefix_refl _)
  have tracks : Tracks (lineAfter [0x61, 0x62, 0x08]) (shellAfter [] [0x61, 0x62, 0x08]) :=
    typed_tracks (typed.past (List.prefix_append _ [0x0D]))
  have typedOver := tracks.handed_iff.mp handed
  exact absurd typedOver (by decide)

end Qapp.Shell
