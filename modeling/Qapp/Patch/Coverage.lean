import Qapp.Patch.Apply

namespace Qapp.Patch

variable {Content Tree : Type} {host : Host Content Tree}

namespace Repo

/-- The early return: a marker whose patches are all there with their checksums. -/
structure Skips (repo : Repo host) : Prop where
  patches : patchFiles repo.files ≠ []
  marked : checkIfPatchesApplied repo.marker ≠ []
  valid : repo.validateAppliedPatches.1 = true

/-- The name is that of an entry, and is read back as it was written. -/
def Named (repo : Repo host) (name : Name) : Prop :=
  Marker.Plain name ∧ ∃ m digest, repo.marker = some m ∧ (name, digest) ∈ m.entries

/-- No other patch in the tree has the checksum of this one. -/
def Distinguished (repo : Repo host) (content : Content) : Prop :=
  ∀ other ∈ repo.work.applied,
    hexdigest (host.md5 other) = hexdigest (host.md5 content) → other = content

/-- Each patch file of the directory is under its name in the marker, and no other patch in the
tree passes for it. -/
def Accounted (repo : Repo host) : Prop :=
  ∀ file ∈ patchFiles repo.files, repo.Named file.1 ∧ repo.Distinguished file.2

/-- Each entry of the marker was written for a patch that is in the tree. -/
def Recorded (repo : Repo host) : Prop :=
  ∀ m, repo.marker = some m → ∀ entry ∈ m.entries,
    ∃ content ∈ repo.work.applied, host.md5 content = entry.2

end Repo

namespace Moment

/-- An `apply` that returns True leaves every patch file of the directory in the tree. -/
def Complete (m : Moment host) : Prop :=
  match m.event with
  | .apply now =>
    (m.before.applyPatches false now).1 = true →
      ∀ file ∈ patchFiles m.before.files,
        file.2 ∈ (m.before.applyPatches false now).2.work.applied
  | _ => True

/-- The early return of an `apply` is taken only where it accounts for every patch file. -/
def Covered (m : Moment host) : Prop :=
  match m.event with
  | .apply _ => m.before.Skips → m.before.Accounted
  | _ => True

end Moment

theorem mem_patchFiles {files : Files Content} {file : File Content}
    (mem : file ∈ patchFiles files) : files.lookup file.1 = some file.2 := by
  have sorted := (List.mem_insertionSort _).mp mem
  exact AList.mem_lookup_iff.mpr (List.mem_filter.mp sorted).1

namespace Repo

/-- What the loop adds is in the tree, and nothing is taken out of it. -/
theorem applyEach_applied (force : Bool) (files : List (File Content)) (work : Worktree host) :
    (∀ content ∈ work.applied, content ∈ (applyEach force work files).work.applied) ∧
      ∀ file ∈ (applyEach force work files).appliedSuccessfully,
        file.2 ∈ (applyEach force work files).work.applied := by
  induction files generalizing work with
  | nil => exact ⟨fun _ mem => mem, fun _ mem => absurd mem List.not_mem_nil⟩
  | cons file rest ih =>
    unfold applyEach
    cases result : work.gitApply file.2 with
    | some after =>
      have applied := Worktree.gitApply_applied result
      obtain ⟨kept, added⟩ := ih after
      constructor
      · intro content mem
        apply kept
        rw [applied]
        exact List.mem_append_left _ mem
      · intro other mem
        cases mem with
        | head =>
          apply kept
          rw [applied]
          exact List.mem_append_right _ (List.mem_singleton_self _)
        | tail _ mem => exact added other mem
    | none =>
      cases force with
      | true => exact ih work
      | false => exact ⟨fun _ mem => mem, fun _ mem => absurd mem List.not_mem_nil⟩

theorem applyEach_all {force : Bool} {files : List (File Content)} {work : Worktree host}
    (none_failed : (applyEach force work files).failedPatches = []) :
    (applyEach force work files).appliedSuccessfully = files := by
  induction files generalizing work with
  | nil => rfl
  | cons file rest ih =>
    unfold applyEach at none_failed ⊢
    cases result : work.gitApply file.2 with
    | some after =>
      rw [result] at none_failed
      exact congrArg (file :: ·) (ih none_failed)
    | none =>
      rw [result] at none_failed
      cases force with
      | true => exact absurd none_failed (List.cons_ne_nil _ _)
      | false => exact absurd none_failed (List.cons_ne_nil _ _)

/-- What a run past the marker can leave: nothing changed, or the loop's work with the old
marker or a new one; it returns True only when no patch failed. -/
theorem applyAll_cases (force : Bool) (now : List Char) (repo : Repo host) :
    repo.applyAll force now = (false, repo) ∨
      let outcome := applyEach force repo.work (patchFiles repo.files)
      let after := { repo with work := outcome.work }
      repo.applyAll force now = (false, after) ∨
        repo.applyAll force now = (false, after.markPatchesApplied now outcome.appliedSuccessfully) ∨
        outcome.failedPatches = [] ∧
          repo.applyAll force now =
            (true, after.markPatchesApplied now outcome.appliedSuccessfully) := by
  unfold applyAll
  dsimp only
  split
  · exact Or.inl rfl
  · apply Or.inr
    split
    · rename_i whole
      exact Or.inr (Or.inr ⟨whole.2, rfl⟩)
    · split
      · split
        · exact Or.inr (Or.inl rfl)
        · exact Or.inl rfl
      · exact Or.inl rfl

theorem mark_recorded (now : List Char) {patches : List (File Content)} {repo : Repo host}
    (inTree : ∀ file ∈ patches, file.2 ∈ repo.work.applied) :
    (repo.markPatchesApplied now patches).Recorded := by
  rintro m marked entry mem
  obtain rfl := Option.some.inj marked
  obtain ⟨file, at_file, rfl⟩ := List.mem_map.mp mem
  exact ⟨file.2, inTree file at_file, rfl⟩

theorem applyAll_recorded (force : Bool) (now : List Char) {repo : Repo host}
    (recorded : repo.Recorded) : (repo.applyAll force now).2.Recorded := by
  obtain ⟨kept, added⟩ := applyEach_applied force (patchFiles repo.files) repo.work
  obtain untouched | same | partly | ⟨_, whole⟩ := applyAll_cases force now repo
  · rw [untouched]
    exact recorded
  · rw [same]
    intro m marked entry mem
    obtain ⟨content, applied, digest⟩ := recorded m marked entry mem
    exact ⟨content, kept content applied, digest⟩
  · rw [partly]
    exact mark_recorded now added
  · rw [whole]
    exact mark_recorded now added

theorem applyPatches_recorded (force : Bool) (now : List Char) {repo : Repo host}
    (recorded : repo.Recorded) : (repo.applyPatches force now).2.Recorded := by
  unfold applyPatches
  split
  · exact recorded
  · split
    · split <;> exact recorded
    · exact applyAll_recorded force now recorded

end Repo

theorem Event.run_recorded {repo : Repo host} (recorded : repo.Recorded)
    (event : Event Content) : (event.run repo).Recorded := by
  cases event with
  | apply now => exact Repo.applyPatches_recorded false now recorded
  | force now => exact Repo.applyPatches_recorded true now recorded
  | revert =>
    intro m marked
    cases marked
  | write name content => exact recorded
  | remove name => exact recorded

theorem Run.recorded {past : List (Moment host)} {repo : Repo host} (run : Run host past repo) :
    repo.Recorded := by
  induction run with
  | fresh files =>
    intro m marked
    cases marked
  | step _ event ih => exact Event.run_recorded ih event

namespace Repo

/-- A line that the validation passes has its file, with the checksum the line says. -/
theorem lineIssue_none {repo : Repo host} {info : List Char} {name : Name} {expected : List Char}
    (parsed : patchInfo info = some (name, expected)) (issue : repo.lineIssue info = none) :
    ∃ content, repo.files.lookup name = some content ∧
      hexdigest (host.md5 content) = expected := by
  unfold lineIssue at issue
  rw [parsed] at issue
  dsimp only at issue
  cases found : repo.files.lookup name with
  | none =>
    rw [found] at issue
    cases issue
  | some content =>
    rw [found] at issue
    dsimp only at issue
    split at issue
    · cases issue
    · rename_i same
      exact ⟨content, rfl, not_not.mp same⟩

/-- A named patch file that the validation passes is in the tree, unless another patch has its
checksum. -/
theorem applied_of_named {repo : Repo host} (recorded : repo.Recorded)
    (valid : repo.validateAppliedPatches.1 = true) {file : File Content}
    (mem : file ∈ patchFiles repo.files) (named : repo.Named file.1)
    (distinguished : repo.Distinguished file.2) : file.2 ∈ repo.work.applied := by
  obtain ⟨plain, m, digest, marked, entry⟩ := named
  obtain ⟨info, read, parsed⟩ := Marker.patchInfo_mem plain entry
  have issues := List.isEmpty_iff.mp valid
  have passed : repo.lineIssue info = none := by
    apply List.filterMap_eq_nil_iff.mp issues
    rw [marked]
    exact read
  obtain ⟨content, found, checksum⟩ := lineIssue_none parsed passed
  have present := mem_patchFiles mem
  obtain rfl : file.2 = content := Option.some.inj (present.symm.trans found)
  obtain ⟨other, applied, same⟩ := recorded m marked (file.1, digest) entry
  have equal : hexdigest (host.md5 other) = hexdigest (host.md5 file.2) := by
    rw [checksum, same]
  rw [← distinguished other applied equal]
  exact applied

theorem applyPatches_skips {repo : Repo host} (skips : repo.Skips) (now : List Char) :
    repo.applyPatches false now = (true, repo) := by
  have marked : (!false && decide (checkIfPatchesApplied repo.marker ≠ [])) = true := by
    simpa using skips.marked
  unfold applyPatches
  rw [if_neg skips.patches, if_pos marked, if_pos skips.valid]

/-- An `apply` that returns True otherwise has applied every patch file itself. -/
theorem applyPatches_complete {repo : Repo host} (skips : ¬ repo.Skips) {now : List Char}
    (succeeds : (repo.applyPatches false now).1 = true) :
    ∀ file ∈ patchFiles repo.files, file.2 ∈ (repo.applyPatches false now).2.work.applied := by
  intro file mem
  unfold applyPatches at succeeds ⊢
  have patches : patchFiles repo.files ≠ [] := List.ne_nil_of_mem mem
  rw [if_neg patches] at succeeds ⊢
  split at succeeds
  · rename_i marked
    split at succeeds
    · rename_i valid
      exact absurd ⟨patches, by simpa using marked, valid⟩ skips
    · cases succeeds
  · rename_i marked
    rw [if_neg marked]
    obtain untouched | same | partly | ⟨none_failed, whole⟩ := applyAll_cases false now repo
    · rw [untouched] at succeeds
      cases succeeds
    · rw [same] at succeeds
      cases succeeds
    · rw [partly] at succeeds
      cases succeeds
    · rw [whole]
      apply (applyEach_applied false (patchFiles repo.files) repo.work).2
      rw [applyEach_all none_failed]
      exact mem

end Repo

theorem Moment.complete_of_covered {m : Moment host} (recorded : m.before.Recorded)
    (covered : m.Covered) : m.Complete := by
  obtain ⟨repo, event⟩ := m
  cases event with
  | apply now =>
    intro succeeds
    by_cases skips : repo.Skips
    · intro file mem
      rw [Repo.applyPatches_skips skips now]
      obtain ⟨named, distinguished⟩ := covered skips file mem
      exact Repo.applied_of_named recorded skips.valid mem named distinguished
    · exact Repo.applyPatches_complete skips succeeds
  | force | revert | write | remove => trivial

/-- In a run whose early returns find every patch file in the marker, every `apply` that returns
True leaves every patch file of the directory in the tree. -/
theorem apply_complete {past : List (Moment host)} {repo : Repo host} (run : Run host past repo)
    (covered : ∀ m ∈ past, m.Covered) : ∀ m ∈ past, m.Complete := by
  induction run with
  | fresh files => exact List.forall_mem_nil _
  | step run event ih =>
    obtain ⟨here, earlier⟩ := List.forall_mem_cons.mp covered
    rw [List.forall_mem_cons]
    exact ⟨Moment.complete_of_covered run.recorded here, ih earlier⟩

/-- A tree of lines to which each patch adds one, unless it is there; the digests are those
of `a` and `b`. -/
def lineHost : Host (List Char) (List (List Char)) where
  base := []
  gitApply content tree := if content ∈ tree then none else some (tree ++ [content])
  md5 content :=
    if content = ['a'] then 0x0cc175b9c0f1b6a831c399e269772661#128
    else 0x92eb5ffee6ae2fec3ad71c777531578f#128

def onePatch : Files (List Char) := AList.singleton "a.patch".toList ['a']

theorem onePatch_files : patchFiles onePatch = [⟨"a.patch".toList, ['a']⟩] := by decide

/-- Two `apply` commands, the second of which takes the early return. -/
theorem apply_complete_twice :
    ∃ past, ∃ repo : Repo lineHost, Run lineHost past repo ∧
      past.map Moment.event = [.apply [], .apply []] ∧ (∃ m ∈ past, m.before.Skips) ∧
      ∀ m ∈ past, m.Complete := by
  have fresh : Run lineHost [] (.fresh onePatch) := .fresh onePatch
  have run := Run.step (.step fresh (.apply [])) (.apply [])
  refine ⟨_, _, run, rfl, ⟨_, .head _, ?_⟩, apply_complete run ?_⟩
  · exact ⟨by decide, by decide, by decide⟩
  · rw [List.forall_mem_cons, List.forall_mem_singleton]
    constructor
    · intro skips file mem
      obtain rfl : file = ⟨"a.patch".toList, ['a']⟩ := by
        apply List.mem_singleton.mp
        rw [← onePatch_files]
        exact mem
      constructor
      · apply And.intro ⟨by decide, by decide, by decide⟩
        exact ⟨⟨[], [("a.patch".toList, 0x0cc175b9c0f1b6a831c399e269772661#128)]⟩, _,
          by decide, List.mem_singleton_self _⟩
      · intro other mem _
        have tree : ((Event.apply []).run (.fresh onePatch : Repo lineHost)).work.applied =
            [['a']] := by decide
        rw [tree] at mem
        exact List.mem_singleton.mp mem
    · intro skips
      exact absurd rfl skips.marked

/-- `b.patch` is added after an `apply`: the next one returns True without it. -/
theorem added_patch_skipped :
    ∃ past, ∃ repo : Repo lineHost, Run lineHost past repo ∧
      past.map Moment.event =
        [.apply [], .write "b.patch".toList ['b'], .apply []] ∧
      ¬ ∀ m ∈ past, m.Complete := by
  have fresh : Run lineHost [] (.fresh onePatch) := .fresh onePatch
  have first := Run.step fresh (.apply [])
  have second := Run.step (Run.step first (.write "b.patch".toList ['b'])) (.apply [])
  apply Exists.intro _
  apply Exists.intro _
  apply And.intro second
  apply And.intro rfl
  intro complete
  have newest := complete _ List.mem_cons_self
  have present := newest (by decide) ⟨"b.patch".toList, ['b']⟩ (by decide)
  exact absurd present (by decide)

end Qapp.Patch
