import Qapp.Patch.Series

namespace Qapp.Patch

variable {Content Tree : Type} {host : Host Content Tree}

/-- `datetime.now()` -/
structure Clock where
  year : Nat
  month : Nat
  day : Nat
  hour : Nat
  minute : Nat
  second : Nat

def twoDigits (n : Nat) : List Char := [Nat.digitChar (n / 10 % 10), Nat.digitChar (n % 10)]

/-- `strftime('%Y-%m-%d %H:%M:%S')` -/
def Clock.strftime (now : Clock) : List Char :=
  twoDigits (now.year / 100) ++ twoDigits now.year ++ '-' :: twoDigits now.month ++
    '-' :: twoDigits now.day ++ ' ' :: twoDigits now.hour ++ ':' :: twoDigits now.minute ++
    ':' :: twoDigits now.second

namespace Repo

/-- The patches `validate_applied_patches` looks at, and the checksums it expects of them. -/
def checkedPatches (repo : Repo host) : List (Name × List Char) :=
  (checkIfPatchesApplied repo.marker).filterMap patchInfo

/-- `status`: the lines it prints as applied, and each patch file with its mark. -/
def status (repo : Repo host) : List (List Char) × List (Name × Bool) :=
  let applied := checkIfPatchesApplied repo.marker
  (applied, (patchFiles repo.files).map fun file => (file.1, decide (file.1 ∈ applied)))

/-- The three readers find in the marker the list that was written. -/
structure RoundTrip (repo : Repo host) (now : Clock) (applied : List (File Content)) : Prop where
  empty : checkIfPatchesApplied (repo.markPatchesApplied now.strftime applied).marker = [] ↔
    applied = []
  checked : (repo.markPatchesApplied now.strftime applied).checkedPatches =
    applied.map fun file => (file.1, hexdigest (host.md5 file.2))
  marked : ∀ file ∈ patchFiles repo.files,
    (file.1, true) ∈ (repo.markPatchesApplied now.strftime applied).status.2 ↔ file ∈ applied

end Repo

/-! ## Lines -/

theorem splitOnP_unbroken {content piece : List Char} (mem : piece ∈ content.splitOnP lineBreak) :
    piece.any lineBreak = false := by
  induction content generalizing piece with
  | nil =>
    rw [List.splitOnP_nil, List.mem_singleton] at mem
    rw [mem]
    rfl
  | cons c content ih =>
    rw [List.splitOnP_cons_eq_if_modifyHead] at mem
    split at mem
    · rcases List.mem_cons.mp mem with rfl | mem
      · rfl
      · exact ih mem
    · rename_i kept
      cases pieces : content.splitOnP lineBreak with
      | nil => exact absurd pieces (List.splitOnP_ne_nil _ _)
      | cons first rest =>
        rw [pieces] at ih mem
        rcases List.mem_cons.mp mem with rfl | mem
        · rw [List.any_cons, ih List.mem_cons_self]
          simpa using kept
        · exact ih (List.mem_cons_of_mem _ mem)

theorem splitLines_unbroken {content piece : List Char} (mem : piece ∈ splitLines content) :
    piece.any lineBreak = false :=
  splitOnP_unbroken (List.mem_filter.mp mem).1

theorem digitChar_not_h : ∀ n < 16, Nat.digitChar n ≠ 'h' := by decide

theorem patch_getLast {name : Name} (patch : ".patch".toList <:+ name) :
    name.getLast? = some 'h' := by
  obtain ⟨front, rfl⟩ := patch
  rw [List.getLast?_append]
  rfl

namespace Marker

/-- A line ends with a digit of the checksum. -/
theorem line_getLast (entry : Name × BitVec 128) : (line entry).getLast? ≠ some 'h' := by
  intro last
  unfold line at last
  rw [List.getLast?_append] at last
  have count : (hexdigest entry.2).length = 32 := by simp [hexdigest]
  cases digits : hexdigest entry.2 with
  | nil =>
    rw [digits] at count
    cases count
  | cons d ds =>
    rw [digits, List.getLast?_cons_cons] at last
    have mem : 'h' ∈ hexdigest entry.2 := by
      rw [digits]
      apply List.mem_of_getLast?
      cases found : (d :: ds).getLast? with
      | none => simp at found
      | some c =>
        rw [found] at last
        exact last
    obtain ⟨n, small, eq⟩ := hexdigest_digit mem
    exact digitChar_not_h n small eq.symm

end Marker

/-- Neither a line break nor the last letter of `.patch`. -/
theorem digitChar_inner (n : Nat) :
    lineBreak (Nat.digitChar (n % 10)) = false ∧ Nat.digitChar (n % 10) ≠ 'h' := by
  have small : n % 10 < 16 := by omega
  obtain ⟨newline, carriage, -⟩ := digitChar_plain _ small
  constructor
  · simp [lineBreak, newline, carriage]
  · exact digitChar_not_h _ small

theorem twoDigits_unbroken (n : Nat) : (twoDigits n).any lineBreak = false := by
  simp [twoDigits, digitChar_inner]

theorem Clock.strftime_unbroken (now : Clock) : now.strftime.any lineBreak = false := by
  have dash : lineBreak '-' = false := rfl
  have blank : lineBreak ' ' = false := rfl
  have colon : lineBreak ':' = false := rfl
  simp [strftime, twoDigits_unbroken, dash, blank, colon, -List.any_eq_false]

theorem Clock.appliedOn_unbroken (now : Clock) :
    splitLines ("# Applied on: ".toList ++ now.strftime) =
      ["# Applied on: ".toList ++ now.strftime] := by
  have label : "# Applied on: ".toList.any lineBreak = false := by decide
  apply splitLines_single (by simp)
  rw [List.any_append, label, now.strftime_unbroken]
  rfl

theorem Clock.strftime_getLast (now : Clock) : now.strftime.getLast? ≠ some 'h' := by
  intro last
  unfold strftime twoDigits at last
  rw [List.getLast?_append] at last
  exact (digitChar_inner now.second).2 (Option.some.inj last)

/-- A marker of names without line breaks has no line that ends like a patch file's name. -/
theorem patch_not_mem {m : Marker} (now : Clock) (time : m.appliedOn = now.strftime)
    (names : ∀ entry ∈ m.entries, entry.1.any lineBreak = false) {name : Name}
    (patch : ".patch".toList <:+ name) : name ∉ checkIfPatchesApplied (some m) := by
  intro mem
  have last := patch_getLast patch
  rcases Marker.mem_checkIfPatchesApplied.mp mem with rfl | on | rfl | ⟨entry, listed, mem⟩
  · revert last
    decide
  · rw [time, now.appliedOn_unbroken] at on
    rw [List.mem_singleton.mp on, List.getLast?_append_of_ne_nil _ (by simp [Clock.strftime])]
      at last
    exact now.strftime_getLast last
  · revert last
    decide
  · rw [Marker.line_unbroken (names entry listed), List.mem_singleton] at mem
    rw [mem] at last
    exact Marker.line_getLast entry last

namespace Repo

theorem mem_status (repo : Repo host) {file : File Content} (mem : file ∈ patchFiles repo.files) :
    (file.1, true) ∈ repo.status.2 ↔ file.1 ∈ checkIfPatchesApplied repo.marker := by
  unfold status
  simp only [List.mem_map, Prod.mk.injEq, decide_eq_true_eq]
  constructor
  · rintro ⟨patch, _, same, marked⟩
    rw [← same]
    exact marked
  · intro marked
    exact ⟨file, mem, rfl, marked⟩

theorem patch_of_mem {files : Files Content} {file : File Content}
    (mem : file ∈ patchFiles files) : ".patch".toList <:+ file.1 := by
  have sorted := (List.mem_insertionSort _).mp mem
  exact of_decide_eq_true (List.mem_filter.mp sorted).2

theorem patchInfo_comment (text : List Char) : patchInfo ('#' :: text) = none := by
  unfold patchInfo
  rw [if_pos (.inr rfl)]

/-- Of plain names the validation checks each against the checksum of its file. -/
theorem checkedPatches_marked (repo : Repo host) (now : Clock) {applied : List (File Content)}
    (plain : ∀ file ∈ applied, Marker.Plain file.1) :
    (repo.markPatchesApplied now.strftime applied).checkedPatches =
      applied.map fun file => (file.1, hexdigest (host.md5 file.2)) := by
  have entries : ∀ files : List (File Content), (∀ file ∈ files, Marker.Plain file.1) →
      ((files.map (record host)).flatMap fun entry => splitLines (Marker.line entry)).filterMap
        patchInfo = files.map fun file => (file.1, hexdigest (host.md5 file.2)) := by
    intro files plain
    induction files with
    | nil => rfl
    | cons file files ih =>
      have first : Marker.Plain (record host file).1 := plain file List.mem_cons_self
      rw [List.map_cons, List.flatMap_cons, Marker.line_unbroken first.oneLine,
        List.singleton_append, List.filterMap_cons_some (Marker.patchInfo_line first),
        ih fun file mem => plain file (List.mem_cons_of_mem _ mem)]
      rfl
  change (splitLines (strip (Marker.text _))).filterMap patchInfo = _
  rw [Marker.splitLines_strip, Marker.splitLines_text]
  dsimp only
  have banner : patchInfo Marker.banner = none := patchInfo_comment _
  have on : patchInfo ("# Applied on: ".toList ++ now.strftime) = none := patchInfo_comment _
  have format : patchInfo Marker.format = none := patchInfo_comment _
  rw [now.appliedOn_unbroken, List.singleton_append, List.singleton_append, List.singleton_append,
    List.filterMap_cons_none banner, List.filterMap_cons_none on, List.filterMap_cons_none format]
  exact entries applied plain

/-- No list of patches is read back by all three readers: the lines that start with `#` count
as patches, and a file's bare name is never among the lines. -/
theorem marker_never_agrees (repo : Repo host) (now : Clock) (applied : List (File Content))
    (listed : ∀ file ∈ applied, file ∈ patchFiles repo.files) : ¬repo.RoundTrip now applied := by
  intro trip
  cases applied with
  | nil => exact Marker.check_ne_nil _ (trip.empty.mpr rfl)
  | cons file files =>
    let after := repo.markPatchesApplied now.strftime (file :: files)
    have lines : ∀ patch ∈ file :: files, patch.1 ∈ checkIfPatchesApplied after.marker := by
      intro patch mem
      have marked := (trip.marked patch (listed patch mem)).mpr mem
      exact (after.mem_status (listed patch mem)).mp marked
    have patch := patch_of_mem (listed file List.mem_cons_self)
    apply patch_not_mem now rfl _ patch (lines file List.mem_cons_self)
    intro entry listed
    obtain ⟨written, mem, rfl⟩ := List.mem_map.mp listed
    exact splitLines_unbroken (lines written mem)

end Repo

def newYear : Clock := ⟨2026, 1, 1, 0, 0, 0⟩

/-- One patch that is applied. -/
theorem marker_never_agrees_one :
    ¬(Repo.fresh onePatch : Repo lineHost).RoundTrip newYear [⟨"a.patch".toList, ['a']⟩] := by
  apply Repo.marker_never_agrees
  have only : patchFiles (Repo.fresh onePatch : Repo lineHost).files =
      [⟨"a.patch".toList, ['a']⟩] := by decide
  intro file mem
  rw [only]
  exact mem

/-- The patch is applied and recorded, and `status` shows it as not applied, below the three
comment lines; and without any patch the comment lines are there all the same. -/
theorem applied_patch_unmarked :
    let marked := (Repo.fresh onePatch : Repo lineHost).markPatchesApplied newYear.strftime
      [⟨"a.patch".toList, ['a']⟩]
    let empty := (Repo.fresh onePatch : Repo lineHost).markPatchesApplied newYear.strftime []
    marked.status.2 = [("a.patch".toList, false)] ∧
      (marked.validateAppliedPatches.2 = [] ∧ marked.status.1.length = 4) ∧
      empty.status.1.length = 3 ∧
      ¬(Repo.fresh onePatch : Repo lineHost).RoundTrip newYear [⟨"a.patch".toList, ['a']⟩] ∧
      ¬(Repo.fresh onePatch : Repo lineHost).RoundTrip newYear [] := by
  intro marked empty
  have shown : marked.status.2 = [("a.patch".toList, false)] := by decide
  have comments : empty.status.1.length = 3 := by decide
  refine ⟨shown, by decide, comments, ?_, ?_⟩
  · intro trip
    have there : (⟨"a.patch".toList, ['a']⟩ : File (List Char)) ∈ patchFiles onePatch := by
      decide
    have mark := (trip.marked _ there).mpr List.mem_cons_self
    have mark : ("a.patch".toList, true) ∈ marked.status.2 := mark
    rw [shown] at mark
    revert mark
    decide
  · intro trip
    have none_listed : empty.status.1 = [] := trip.empty.mpr rfl
    rw [none_listed] at comments
    cases comments

end Qapp.Patch
