import Qapp.Patch.Coverage

namespace Qapp.Patch

variable {Content Tree : Type} {host : Host Content Tree}

/-- Patch files applied one after the other. -/
def Host.series (host : Host Content Tree) (files : List (File Content)) (tree : Tree) :
    Option Tree :=
  files.foldlM (fun tree file => host.gitApply file.2 tree) tree

theorem Host.series_cons (file : File Content) (files : List (File Content)) (tree : Tree) :
    host.series (file :: files) tree = host.gitApply file.2 tree >>= host.series files := rfl

namespace Repo

/-- The entry that is written for a patch file. -/
def record (host : Host Content Tree) (file : File Content) : Name × BitVec 128 :=
  (file.1, host.md5 file.2)

/-- `applied` are the patches that a run has added to the tree, and all that its marker lists. -/
structure Lists (repo : Repo host) (now : List Char) (applied : List (File Content))
    (after : Repo host) : Prop where
  marker : after.marker = some ⟨now, applied.map (record host)⟩
  tree : host.series applied repo.work.tree = some after.work.tree
  added : after.work.applied = repo.work.applied ++ applied.map Sigma.snd

/-- A run that has applied the whole directory. -/
structure Applies (repo : Repo host) (now : List Char) : Prop where
  succeeds : (repo.applyPatches false now).1 = true
  lists : repo.Lists now (patchFiles repo.files) (repo.applyPatches false now).2

/-- What a run that fails leaves: the tree as it was, or a marker of what it has applied. -/
def Accounts (repo : Repo host) (now : List Char) : Prop :=
  (repo.applyPatches false now).2.work.tree = repo.work.tree ∨
    ∃ applied, applied <+: patchFiles repo.files ∧
      repo.Lists now applied (repo.applyPatches false now).2

/-- A series that succeeds is applied, and a run that fails accounts for the tree. -/
structure Serial (repo : Repo host) (now : List Char) : Prop where
  applies : ∀ tree, host.series (patchFiles repo.files) repo.work.tree = some tree →
    repo.Applies now
  accounts : (repo.applyPatches false now).1 = false → repo.Accounts now

end Repo

theorem Worktree.gitApply_tree (work : Worktree host) (content : Content) :
    (work.gitApply content).map Worktree.tree = host.gitApply content work.tree := by
  unfold Worktree.gitApply
  split
  · rename_i failed
    rw [failed]
    rfl
  · rename_i tree passed
    exact passed.symm

namespace Repo

/-- What the loop reports as applied is what it has added to the tree. -/
theorem applyEach_added (files : List (File Content)) (work : Worktree host) :
    let outcome := applyEach false work files
    outcome.appliedSuccessfully <+: files ∧
      host.series outcome.appliedSuccessfully work.tree = some outcome.work.tree ∧
      outcome.work.applied = work.applied ++ outcome.appliedSuccessfully.map Sigma.snd := by
  induction files generalizing work with
  | nil => exact ⟨List.prefix_refl _, rfl, (List.append_nil _).symm⟩
  | cons file files ih =>
    dsimp only
    unfold applyEach
    have tree := work.gitApply_tree file.2
    cases result : work.gitApply file.2 with
    | some after =>
      rw [result] at tree
      obtain ⟨front, series, added⟩ := ih after
      refine ⟨List.cons_prefix_cons.mpr ⟨rfl, front⟩, ?_, ?_⟩
      · rw [Host.series_cons, ← tree]
        exact series
      · dsimp only
        rw [added, Worktree.gitApply_applied result, List.append_assoc]
        rfl
    | none => exact ⟨List.nil_prefix, rfl, (List.append_nil _).symm⟩

/-- In a series that succeeds no patch fails. -/
theorem applyEach_series {files : List (File Content)} {work : Worktree host} {tree : Tree}
    (series : host.series files work.tree = some tree) :
    (applyEach false work files).failedPatches = [] := by
  induction files generalizing work with
  | nil => rfl
  | cons file files ih =>
    unfold applyEach
    have step := work.gitApply_tree file.2
    rw [Host.series_cons, ← step] at series
    cases result : work.gitApply file.2 with
    | some after =>
      rw [result] at series
      exact ih series
    | none =>
      rw [result] at series
      cases series

/-- Without a marker and with a file at hand the patches are tried. -/
theorem applyPatches_unmarked {repo : Repo host} (unmarked : repo.marker = none)
    (files : patchFiles repo.files ≠ []) (now : List Char) :
    repo.applyPatches false now = repo.applyAll false now := by
  unfold applyPatches
  rw [if_neg files, unmarked, if_neg (by simp [checkIfPatchesApplied])]

theorem applyAll_refused {repo : Repo host} {file : File Content}
    (mem : file ∈ patchFiles repo.files) (refused : repo.work.check file.2 = false)
    (now : List Char) : repo.applyAll false now = (false, repo) := by
  unfold applyAll
  dsimp only
  rw [if_pos]
  rw [Bool.and_eq_true]
  exact ⟨List.any_eq_true.mpr ⟨file, mem, by rw [refused]; rfl⟩, rfl⟩

/-- Where each file applies to the tree as it is, the loop decides. -/
theorem applyAll_checked {repo : Repo host} (now : List Char)
    (checked : ∀ file ∈ patchFiles repo.files, repo.work.check file.2 = true) :
    repo.applyAll false now =
      let outcome := applyEach false repo.work (patchFiles repo.files)
      let after := { repo with work := outcome.work }
      if outcome.appliedSuccessfully.length > 0 ∧ outcome.failedPatches = [] then
        (true, after.markPatchesApplied now outcome.appliedSuccessfully)
      else if outcome.failedPatches ≠ [] then
        (false, if outcome.appliedSuccessfully ≠ [] then
          after.markPatchesApplied now outcome.appliedSuccessfully else after)
      else (false, after) := by
  unfold applyAll
  dsimp only
  rw [if_neg]
  intro failed
  rw [Bool.and_eq_true, List.any_eq_true] at failed
  obtain ⟨⟨file, mem, refused⟩, -⟩ := failed
  rw [checked file mem] at refused
  cases refused

theorem lists_marked {repo : Repo host} (now : List Char) :
    let outcome := applyEach false repo.work (patchFiles repo.files)
    repo.Lists now outcome.appliedSuccessfully
      ({ repo with work := outcome.work }.markPatchesApplied now outcome.appliedSuccessfully) := by
  obtain ⟨-, series, added⟩ := applyEach_added (patchFiles repo.files) repo.work
  exact ⟨rfl, series, added⟩

theorem applyPatches_applies {repo : Repo host} (unmarked : repo.marker = none)
    (files : patchFiles repo.files ≠ []) (now : List Char)
    (checked : ∀ file ∈ patchFiles repo.files, repo.work.check file.2 = true) {tree : Tree}
    (series : host.series (patchFiles repo.files) repo.work.tree = some tree) :
    repo.Applies now := by
  have none_failed := applyEach_series series
  have all := applyEach_all none_failed
  have some_applied : (applyEach false repo.work (patchFiles repo.files)).appliedSuccessfully.length
      > 0 := by
    rw [all]
    exact List.length_pos_of_ne_nil files
  have lists := repo.lists_marked now
  have run := applyPatches_unmarked unmarked files now
  rw [applyAll_checked now checked] at run
  dsimp only at run lists
  rw [if_pos ⟨some_applied, none_failed⟩] at run
  rw [all] at lists run
  constructor
  · rw [run]
  · rw [run]
    exact lists

theorem applyPatches_accounts {repo : Repo host} (unmarked : repo.marker = none) {now : List Char}
    (fails : (repo.applyPatches false now).1 = false) : repo.Accounts now := by
  unfold Accounts
  by_cases files : patchFiles repo.files = []
  · left
    unfold applyPatches
    rw [if_pos files]
  rw [applyPatches_unmarked unmarked files] at fails ⊢
  by_cases checked : ∀ file ∈ patchFiles repo.files, repo.work.check file.2 = true
  · obtain ⟨front, series, -⟩ := applyEach_added (patchFiles repo.files) repo.work
    have lists := repo.lists_marked now
    rw [applyAll_checked now checked] at fails ⊢
    dsimp only at fails ⊢
    split at fails
    · cases fails
    · rename_i not_all
      rw [if_neg not_all]
      split
      · split
        · exact .inr ⟨_, front, lists⟩
        · -- the first patch has failed already
          rename_i none_applied
          rw [not_not.mp none_applied] at series
          exact .inl (Option.some.inj series).symm
      · rename_i none_failed
        have all := applyEach_all (not_not.mp none_failed)
        rw [all] at not_all
        exact absurd ⟨List.length_pos_of_ne_nil files, not_not.mp none_failed⟩ not_all
  · simp only [not_forall, Bool.not_eq_true] at checked
    obtain ⟨file, mem, refused⟩ := checked
    rw [applyAll_refused mem refused]
    exact .inl rfl

/-- Without a marker, a series that succeeds is applied as a whole if each of its files also
applies to the tree as it is; and a run that fails leaves the tree as it was or a marker
that lists what it has applied. -/
theorem applyPatches_series (repo : Repo host) (now : List Char) (unmarked : repo.marker = none) :
    (patchFiles repo.files ≠ [] →
      (∀ file ∈ patchFiles repo.files, repo.work.check file.2 = true) →
        ∀ tree, host.series (patchFiles repo.files) repo.work.tree = some tree →
          repo.Applies now) ∧
    ((repo.applyPatches false now).1 = false → repo.Accounts now) :=
  ⟨fun files checked _ series => applyPatches_applies unmarked files now checked series,
    applyPatches_accounts unmarked⟩

end Repo

def twoPatches : Files (List Char) := onePatch.insert "b.patch".toList ['b']

theorem twoPatches_files : patchFiles twoPatches =
    [⟨"a.patch".toList, ['a']⟩, ⟨"b.patch".toList, ['b']⟩] := by decide

/-- A tree that takes one line only. -/
def lonelyHost : Host (List Char) (List (List Char)) where
  base := []
  gitApply content tree := if tree = [] then some [content] else none
  md5 := lineHost.md5

/-- Two patches that do not touch each other are applied, and two that exclude each other leave
a marker of the first one. -/
theorem applyPatches_series_two : (Repo.fresh twoPatches : Repo lineHost).Applies [] ∧
    (Repo.fresh twoPatches : Repo lonelyHost).Accounts [] := by
  have files : patchFiles (Repo.fresh twoPatches : Repo lineHost).files =
      [⟨"a.patch".toList, ['a']⟩, ⟨"b.patch".toList, ['b']⟩] := twoPatches_files
  constructor
  · apply ((Repo.fresh twoPatches : Repo lineHost).applyPatches_series [] rfl).1 _ _ [['a'], ['b']]
    · rw [files]
      decide
    · rw [files]
      exact List.cons_ne_nil _ _
    · rw [files]
      decide
  · exact ((Repo.fresh twoPatches : Repo lonelyHost).applyPatches_series [] rfl).2
      (by decide)

/-- A tree of lines to which `b` can be added only behind `a`. -/
def stackHost : Host (List Char) (List (List Char)) where
  base := []
  gitApply content tree :=
    if content ∈ tree ∨ content = ['b'] ∧ ['a'] ∉ tree then none else some (tree ++ [content])
  md5 := lineHost.md5

/-- Two patches that succeed one after the other are refused, since the second one does not
apply to the tree without the first. -/
theorem dependent_series_refused :
    (Repo.fresh twoPatches : Repo stackHost).applyPatches false [] = (false, .fresh twoPatches) ∧
      ¬(Repo.fresh twoPatches : Repo stackHost).Serial [] := by
  have refused : ((Repo.fresh twoPatches : Repo stackHost).applyPatches false []).1 = false := by
    decide
  constructor
  · rw [Repo.applyPatches_unmarked rfl (by decide)]
    have mem : (⟨"b.patch".toList, ['b']⟩ : File (List Char)) ∈ patchFiles twoPatches := by
      rw [twoPatches_files]
      exact .tail _ (.head _)
    exact Repo.applyAll_refused mem (by decide) []
  · intro serial
    have applies := serial.applies [['a'], ['b']] (by decide)
    cases refused.symm.trans applies.succeeds

end Qapp.Patch
