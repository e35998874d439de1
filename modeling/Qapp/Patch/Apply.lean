import Mathlib.Data.Char
import Mathlib.Data.List.AList
import Mathlib.Data.List.Lex
import Mathlib.Data.List.Sort
import Qapp.Patch.Marker

namespace Qapp.Patch

/-- What the script calls: `git apply` on a work tree, the tree that `git reset --hard` and
`git clean` go back to, and `hashlib.md5`. -/
structure Host (Content Tree : Type) where
  base : Tree
  gitApply : Content → Tree → Option Tree
  md5 : Content → BitVec 128

variable {Content Tree : Type} (host : Host Content Tree)

/-- The base tree with patches applied one after the other. -/
def Host.replay (patches : List Content) : Option Tree :=
  patches.foldlM (fun tree content => host.gitApply content tree) host.base

/-- The Zephyr tree, with the patches that make it out of the base tree. -/
structure Worktree where
  tree : Tree
  applied : List Content
  made : host.replay applied = some tree

namespace Worktree

variable {host}

/-- `git reset --hard` and `git clean -fd`. -/
def reset : Worktree host where
  tree := host.base
  applied := []
  made := rfl

/-- `git apply --check`. -/
def check (work : Worktree host) (content : Content) : Bool :=
  (host.gitApply content work.tree).isSome

theorem made_append (work : Worktree host) {content : Content} {tree : Tree}
    (apply : host.gitApply content work.tree = some tree) :
    host.replay (work.applied ++ [content]) = some tree := by
  have made := work.made
  unfold Host.replay at made ⊢
  rw [List.foldlM_append, made]
  simp [apply]

/-- `git apply`, which changes nothing when it fails. -/
def gitApply (work : Worktree host) (content : Content) : Option (Worktree host) :=
  match apply : host.gitApply content work.tree with
  | none => none
  | some tree => some ⟨tree, work.applied ++ [content], work.made_append apply⟩

theorem gitApply_applied {work after : Worktree host} {content : Content}
    (apply : work.gitApply content = some after) :
    after.applied = work.applied ++ [content] := by
  unfold gitApply at apply
  split at apply
  · cases apply
  · cases apply
    rfl

end Worktree

abbrev Files (Content : Type) := AList fun _ : Name => Content

abbrev File (Content : Type) := (_ : Name) × Content

/-- The patch directory, the marker file and the tree. -/
structure Repo where
  files : Files Content
  marker : Option Marker
  work : Worktree host

/-- `sorted(PATCHES_DIR.glob('*.patch'))`. -/
def patchFiles (files : Files Content) : List (File Content) :=
  (files.entries.filter fun file => ".patch".toList <:+ file.1).insertionSort
    fun a b => a.1 ≤ b.1

inductive Issue
  | fileMissing
  | checksumMismatch
  deriving DecidableEq, Repr

namespace Repo

variable {host}

/-- One line of the marker: the issue that makes it invalid, if there is one. -/
def lineIssue (repo : Repo host) (info : List Char) : Option (Name × Issue) :=
  match patchInfo info with
  | none => none
  | some (name, expected) =>
    match repo.files.lookup name with
    | none => some (name, .fileMissing)
    | some content =>
      if hexdigest (host.md5 content) ≠ expected then some (name, .checksumMismatch) else none

/-- `validate_applied_patches`: the patches that are missing or have changed. -/
def validateAppliedPatches (repo : Repo host) : Bool × List (Name × Issue) :=
  let invalid := (checkIfPatchesApplied repo.marker).filterMap repo.lineIssue
  (invalid.isEmpty, invalid)

/-- What the loop over the patch files leaves. -/
structure Outcome (host : Host Content Tree) where
  work : Worktree host
  appliedSuccessfully : List (File Content)
  failedPatches : List Name

/-- The loop of `apply_patches`: without `force` the first failure ends it. -/
def applyEach (force : Bool) (work : Worktree host) : List (File Content) → Outcome host
  | [] => ⟨work, [], []⟩
  | file :: rest =>
    match work.gitApply file.2 with
    | some work =>
      let outcome := applyEach force work rest
      { outcome with appliedSuccessfully := file :: outcome.appliedSuccessfully }
    | none =>
      if force then
        let outcome := applyEach force work rest
        { outcome with failedPatches := file.1 :: outcome.failedPatches }
      else ⟨work, [], [file.1]⟩

/-- `mark_patches_applied` at a time of the day. -/
def markPatchesApplied (now : List Char) (patches : List (File Content)) (repo : Repo host) :
    Repo host :=
  { repo with
    marker := some ⟨now, patches.map fun file => (file.1, host.md5 file.2)⟩ }

/-- `apply_patches` after the look at the marker. -/
def applyAll (force : Bool) (now : List Char) (repo : Repo host) : Bool × Repo host :=
  let files := patchFiles repo.files
  let validationFailed := files.any fun file => !repo.work.check file.2
  if validationFailed && !force then (false, repo)
  else
    let outcome := applyEach force repo.work files
    let repo := { repo with work := outcome.work }
    if outcome.appliedSuccessfully.length > 0 ∧ outcome.failedPatches = [] then
      (true, repo.markPatchesApplied now outcome.appliedSuccessfully)
    else if outcome.failedPatches ≠ [] then
      (false, if outcome.appliedSuccessfully ≠ [] then
        repo.markPatchesApplied now outcome.appliedSuccessfully else repo)
    else (false, repo)

/-- `apply_patches`. -/
def applyPatches (force : Bool) (now : List Char) (repo : Repo host) : Bool × Repo host :=
  if patchFiles repo.files = [] then (true, repo)
  else if !force && checkIfPatchesApplied repo.marker ≠ [] then
    if repo.validateAppliedPatches.1 then (true, repo) else (false, repo)
  else repo.applyAll force now

/-- `revert_patches`. -/
def revertPatches (repo : Repo host) : Repo host :=
  { repo with work := .reset, marker := none }

/-- A checkout that was never patched. -/
def fresh (files : Files Content) : Repo host where
  files := files
  marker := none
  work := .reset

end Repo

/-- The commands of the script and the changes to its directory. -/
inductive Event (Content : Type)
  | apply (now : List Char)
  | force (now : List Char)
  | revert
  | write (name : Name) (content : Content)
  | remove (name : Name)
  deriving DecidableEq, Repr

variable {host}

def Event.run (repo : Repo host) : Event Content → Repo host
  | .apply now => (repo.applyPatches false now).2
  | .force now => (repo.applyPatches true now).2
  | .revert => repo.revertPatches
  | .write name content => { repo with files := repo.files.insert name content }
  | .remove name => { repo with files := repo.files.erase name }

/-- An event and the state it finds. -/
structure Moment (host : Host Content Tree) where
  before : Repo host
  event : Event Content

/-- The moments since the checkout, newest first, and the state after them. -/
inductive Run (host : Host Content Tree) : List (Moment host) → Repo host → Prop
  | fresh (files : Files Content) : Run host [] (.fresh files)
  | step {past : List (Moment host)} {repo : Repo host} (run : Run host past repo)
      (event : Event Content) :
      Run host (⟨repo, event⟩ :: past) (event.run repo)

end Qapp.Patch
