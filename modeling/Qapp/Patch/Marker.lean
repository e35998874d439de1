import Mathlib.Algebra.Group.Nat.Defs
import Mathlib.Data.List.DropRight

namespace Qapp.Patch

abbrev Name := List Char

scoped instance lawfulBEq_name : LawfulBEq Name := inferInstance

/-- `hashlib.md5(..).hexdigest()`: the 32 digits of a 128-bit digest. -/
def hexdigest (digest : BitVec 128) : List Char :=
  (List.range 32).map fun i => Nat.digitChar (digest.toNat / 16 ^ (31 - i) % 16)

theorem hexdigest_digit {digest : BitVec 128} {c : Char} (mem : c ∈ hexdigest digest) :
    ∃ n, n < 16 ∧ c = Nat.digitChar n := by
  obtain ⟨i, _, rfl⟩ := List.mem_map.mp mem
  exact ⟨_, Nat.mod_lt _ (by decide), rfl⟩

theorem digitChar_plain : ∀ n < 16, Nat.digitChar n ≠ '\n' ∧ Nat.digitChar n ≠ '\r' ∧
    (Nat.digitChar n).isWhitespace = false := by
  decide

/-- What `mark_patches_applied` writes: the time, then one entry for each patch. -/
structure Marker where
  appliedOn : List Char
  entries : List (Name × BitVec 128)
  deriving DecidableEq, Repr

namespace Marker

/-- `f"{patch_file.name}:{checksum}"`. -/
def line (entry : Name × BitVec 128) : List Char := entry.1 ++ ':' :: hexdigest entry.2

def banner : List Char := "# Zephyr Patches Applied - DO NOT EDIT MANUALLY".toList

def format : List Char := "# Format: patch_filename:checksum".toList

def text (m : Marker) : List Char :=
  banner ++ '\n' :: ("# Applied on: ".toList ++ m.appliedOn ++ '\n' :: (format ++ '\n' ::
    m.entries.flatMap fun entry => line entry ++ ['\n']))

end Marker

/-- In text mode a carriage return ends a line too. -/
def lineBreak (c : Char) : Bool := c == '\n' || c == '\r'

/-- `content.split('\n')` without the empty lines. -/
def splitLines (content : List Char) : List (List Char) :=
  (content.splitOnP lineBreak).filter (· ≠ [])

/-- `content.strip()`. -/
def strip (content : List Char) : List Char :=
  (content.dropWhile Char.isWhitespace).rdropWhile Char.isWhitespace

def checkIfPatchesApplied (marker : Option Marker) : List (List Char) :=
  match marker with
  | none => []
  | some m => splitLines (strip m.text)

/-- The name and the checksum that `validate_applied_patches` takes from a line; it skips
the lines without a colon and those that start with `#`. -/
def patchInfo (info : List Char) : Option (Name × List Char) :=
  if ':' ∉ info ∨ info.head? = some '#' then none
  else some (info.takeWhile (· ≠ ':'), (info.dropWhile (· ≠ ':')).tail)

theorem splitLines_append (before after : List Char) {c : Char} (breaks : lineBreak c) :
    splitLines (before ++ c :: after) = splitLines before ++ splitLines after := by
  unfold splitLines
  rw [List.splitOnP_append_cons before after breaks, List.filter_append]

theorem splitLines_single {content : List Char} (nonempty : content ≠ [])
    (unbroken : content.any lineBreak = false) : splitLines content = [content] := by
  unfold splitLines
  rw [List.splitOnP_eq_singleton (by simpa using unbroken)]
  simp [nonempty]

theorem splitLines_nil : splitLines [] = [] := rfl

theorem splitLines_flatMap {Item : Type} (line : Item → List Char) (items : List Item) :
    splitLines (items.flatMap fun item => line item ++ ['\n']) =
      items.flatMap fun item => splitLines (line item) := by
  induction items with
  | nil => rfl
  | cons item items ih =>
    rw [List.flatMap_cons, List.flatMap_cons, ← ih, List.append_assoc, List.singleton_append]
    exact splitLines_append _ _ rfl

namespace Marker

/-- The text ends with one line end, after a character that `strip` keeps. -/
def Ends (content : List Char) : Prop :=
  ∃ body c, content = body ++ [c] ++ ['\n'] ∧ c.isWhitespace = false

theorem Ends.append {content : List Char} (ends : Ends content) (before : List Char) :
    Ends (before ++ content) := by
  obtain ⟨body, c, rfl, kept⟩ := ends
  exact ⟨before ++ body, c, by simp only [List.append_assoc], kept⟩

theorem line_ends (entry : Name × BitVec 128) : Ends (line entry ++ ['\n']) := by
  obtain none | ⟨digits, c, digits_eq⟩ := List.eq_nil_or_concat (hexdigest entry.2)
  · have count : (hexdigest entry.2).length = 32 := by simp [hexdigest]
    rw [none] at count
    exact absurd count (by decide)
  · have mem : c ∈ hexdigest entry.2 := by simp [digits_eq]
    obtain ⟨n, small, rfl⟩ := hexdigest_digit mem
    apply Exists.intro (entry.1 ++ ':' :: digits)
    apply Exists.intro (Nat.digitChar n)
    apply And.intro _ (digitChar_plain n small).2.2
    simp [line, digits_eq]

theorem text_ends (m : Marker) : Ends m.text := by
  have body : Ends (format ++ '\n' :: m.entries.flatMap fun entry => line entry ++ ['\n']) := by
    obtain none | ⟨entries, last, entries_eq⟩ := List.eq_nil_or_concat m.entries
    · rw [none]
      exact ⟨"# Format: patch_filename:checksu".toList, 'm', by decide, by decide⟩
    · rw [entries_eq, List.concat_eq_append, List.flatMap_append, List.flatMap_singleton,
        ← List.cons_append, ← List.append_assoc]
      exact (line_ends last).append _
  unfold text
  have inner := body.append ("# Applied on: ".toList ++ m.appliedOn ++ ['\n'])
  have outer := inner.append (banner ++ ['\n'])
  simpa only [List.append_assoc, List.cons_append, List.nil_append] using outer

/-- All that `strip` takes from such a text is its last line end. -/
theorem Ends.splitLines_strip {content : List Char} (ends : Ends content)
    (starts : content.dropWhile Char.isWhitespace = content) :
    splitLines (strip content) = splitLines content := by
  obtain ⟨body, c, content_eq, kept⟩ := ends
  have stripped : strip content = body ++ [c] := by
    unfold strip
    rw [starts, content_eq, List.rdropWhile_concat_pos _ _ _ (by decide),
      List.rdropWhile_concat_neg _ _ _ (by simp [kept])]
  have broken := splitLines_append (body ++ [c]) [] (c := '\n') rfl
  rw [splitLines_nil, List.append_nil] at broken
  rw [stripped, content_eq]
  exact broken.symm

theorem splitLines_strip (m : Marker) : splitLines (strip m.text) = splitLines m.text := by
  apply m.text_ends.splitLines_strip
  change List.dropWhile _ ('#' :: _) = '#' :: _
  exact List.dropWhile_cons_of_neg (by decide)

theorem splitLines_text (m : Marker) :
    splitLines m.text =
      [banner] ++ (splitLines ("# Applied on: ".toList ++ m.appliedOn) ++
        ([format] ++ m.entries.flatMap fun entry => splitLines (line entry))) := by
  have first : splitLines banner = [banner] := splitLines_single (List.cons_ne_nil _ _) (by decide)
  have third : splitLines format = [format] := splitLines_single (List.cons_ne_nil _ _) (by decide)
  unfold text
  rw [splitLines_append _ _ (by rfl), splitLines_append _ _ (by rfl),
    splitLines_append _ _ (by rfl), splitLines_flatMap, first, third]

/-- A marker file that exists is never read as empty. -/
theorem check_ne_nil (m : Marker) : checkIfPatchesApplied (some m) ≠ [] := by
  change splitLines (strip m.text) ≠ []
  rw [splitLines_strip, splitLines_text]
  exact List.cons_ne_nil _ _

/-- The names whose line is read back as it was written. -/
structure Plain (name : Name) : Prop where
  oneLine : name.any lineBreak = false
  noColon : ':' ∉ name
  noComment : name.head? ≠ some '#'

theorem hexdigest_unbroken (digest : BitVec 128) : (hexdigest digest).any lineBreak = false := by
  apply List.any_eq_false.mpr
  intro c mem
  obtain ⟨n, small, rfl⟩ := hexdigest_digit mem
  obtain ⟨newline, carriage, -⟩ := digitChar_plain n small
  simp [lineBreak, newline, carriage]

theorem line_unbroken {entry : Name × BitVec 128} (oneLine : entry.1.any lineBreak = false) :
    splitLines (line entry) = [line entry] := by
  apply splitLines_single (by simp [line])
  unfold line
  rw [List.any_append, oneLine, List.any_cons, hexdigest_unbroken]
  rfl

theorem patchInfo_line {entry : Name × BitVec 128} (plain : Plain entry.1) :
    patchInfo (line entry) = some (entry.1, hexdigest entry.2) := by
  have beforeColon : ∀ c ∈ entry.1, (decide (c ≠ ':')) = true := by
    intro c mem_c
    apply decide_eq_true
    rintro rfl
    exact plain.noColon mem_c
  have head : (line entry).head? ≠ some '#' := by
    unfold line
    cases name : entry.1 with
    | nil => simp
    | cons c name_tail =>
      have noComment := plain.noComment
      rw [name] at noComment
      exact noComment
  unfold patchInfo
  rw [if_neg (by simp [line] at head ⊢; exact head)]
  simp only [line, List.takeWhile_append_of_pos beforeColon,
    List.dropWhile_append_of_pos beforeColon]
  simp

theorem mem_checkIfPatchesApplied {m : Marker} {info : List Char} :
    info ∈ checkIfPatchesApplied (some m) ↔
      info = banner ∨ info ∈ splitLines ("# Applied on: ".toList ++ m.appliedOn) ∨
        info = format ∨ ∃ entry ∈ m.entries, info ∈ splitLines (line entry) := by
  change info ∈ splitLines (strip m.text) ↔ _
  rw [splitLines_strip, splitLines_text]
  simp only [List.mem_append, List.mem_singleton, List.mem_flatMap]

/-- The entry of a plain name is among those that are validated. -/
theorem patchInfo_mem {m : Marker} {name : Name} {digest : BitVec 128} (plain : Plain name)
    (mem : (name, digest) ∈ m.entries) :
    ∃ info ∈ checkIfPatchesApplied (some m), patchInfo info = some (name, hexdigest digest) := by
  apply Exists.intro (line (name, digest))
  constructor
  · have whole : splitLines (line (name, digest)) = [line (name, digest)] :=
      line_unbroken plain.oneLine
    apply mem_checkIfPatchesApplied.mpr
    right; right; right
    exact ⟨(name, digest), mem, by rw [whole]; exact List.mem_singleton_self _⟩
  · exact patchInfo_line plain

end Marker

end Qapp.Patch
