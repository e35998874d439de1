import Mathlib.Data.List.Dedup
import Mathlib.Data.List.Infix
import Qapp.Lib.FileTree
import Qapp.Overlay.Names

namespace Qapp.Overlay

open Patch (lineBreak splitLines strip)

abbrev Tree (Content : Type) := FileTree Name Content

/-- A change of one file: its path, what was there and what is there now. -/
abbrev Change (Content : Type) := Path × Option Content × Content

/-- What the script calls: `git diff` of the files that a pathspec matches, `git apply`, the
files that git ignores, text files in UTF-8, and the order in which a directory is read. -/
structure Host (Content : Type) where
  diff : List (Change Content) → Content
  gitApply : Content → Tree Content → Option (Tree Content)
  pathspec : List Char → Path → Bool
  ignored : Path → Bool
  decode : Content → Option (List Char)
  encode : List Char → Content
  order : List Path → List Path
  encode_decode : ∀ content text, decode content = some text → encode text = content
  /-- "No valid patches in input" -/
  apply_empty : ∀ tree, gitApply (encode []) tree = none
  pathspec_self : ∀ path, pathspec (str path) path = true
  order_perm : ∀ paths, (order paths).Perm paths

variable {Content : Type} [DecidableEq Content]

/-- The Zephyr repository: nothing that `HEAD` has is staged for deletion. -/
structure Zephyr (Content : Type) where
  head : Tree Content
  index : Tree Content
  work : Tree Content
  kept : ∀ path ∈ head.files, path ∈ index.files
  clean : ∀ path ∈ index.files, Clean path

namespace Zephyr

/-- The staged files, as git lists them. -/
def staged (z : Zephyr Content) : List (Path × Content) :=
  (z.index.files.entries.filter fun file => z.head.lookup file.1 ≠ some file.2).map
    fun file => (file.1, file.2)

def status (z : Zephyr Content) (path : Path) : Char :=
  if (z.head.lookup path).isSome then 'M' else 'A'

def statusLine (z : Zephyr Content) (file : Path × Content) : List Char :=
  z.status file.1 :: '\t' :: cQuote (str file.1)

/-- `git diff --name-status --cached` -/
def nameStatus (z : Zephyr Content) : List Char :=
  z.staged.flatMap fun file => z.statusLine file ++ ['\n']

def change (z : Zephyr Content) (file : Path × Content) : Change Content :=
  (file.1, z.head.lookup file.1, file.2)

/-- `git diff --cached -- file_rel_path_str` -/
def diffCached (host : Host Content) (z : Zephyr Content) (name : List Char) : Content :=
  host.diff ((z.staged.filter fun file => host.pathspec name file.1).map z.change)

/-- The untracked files that `git clean -fd` leaves, since git ignores them. -/
def leftovers (host : Host Content) (z : Zephyr Content) : List (Path × Content) :=
  (z.work.files.entries.filter fun file =>
    (z.index.lookup file.1).isNone ∧ host.ignored file.1).map fun file => (file.1, file.2)

/-- `remove`: they stay where nothing of `HEAD` has their place. -/
def remove (host : Host Content) (z : Zephyr Content) : Zephyr Content where
  head := z.head
  index := z.head
  work := (z.leftovers host).foldl (fun tree file => (tree.put file.1 file.2).getD tree) z.head
  kept := fun _ mem => mem
  clean := fun path mem => z.clean path (z.kept path mem)

end Zephyr

/-- In text mode every line end is read as `\n`. -/
def universalNewlines : List Char → List Char
  | '\r' :: '\n' :: text => '\n' :: universalNewlines text
  | '\r' :: text => '\n' :: universalNewlines text
  | c :: text => c :: universalNewlines text
  | [] => []

/-- `line.split('\t', 1)`, which must have two parts. -/
def splitTab (line : List Char) : Option (List Char × List Char) :=
  if '\t' ∈ line then
    some (line.takeWhile (· ≠ '\t'), (line.dropWhile (· ≠ '\t')).tail)
  else none

def targetDirs : List Name := ["tests".toList, "samples".toList]

def isTarget : Path → Bool
  | [] => false
  | dir :: _ => decide (dir ∈ targetDirs)

/-- One line of the loop of `generate_patches`; directories without files are left out. -/
def generateLine (host : Host Content) (z : Zephyr Content) (repo : Tree Content)
    (line : List Char) : Option (Tree Content) :=
  match splitTab line with
  | none => none
  | some (status, name) =>
    let path := parts name
    if !isTarget path then some repo
    else if status = ['A'] then
      match z.work.lookup path with
      | none => none
      | some content => repo.put path content
    else if status = ['M'] then
      match host.decode (z.diffCached host name) with
      | none => none
      | some text =>
        let patchContent := universalNewlines text
        if patchContent ≠ [] then repo.put (parts (name ++ patchExt)) (host.encode patchContent)
        else some repo
    else some repo

def generatePatches (host : Host Content) (z : Zephyr Content) (repo : Tree Content) :
    Option (Tree Content) :=
  (splitLines (strip z.nameStatus)).foldlM (generateLine host z) repo

/-- `patch_path.rglob('*')`, without the suffixes that are not copied. -/
def overlays (repo : Tree Content) (folder : Path) : List Path :=
  repo.files.keys.filter fun path =>
    folder <+: path ∧ path ≠ folder ∧ suffix (fileName path) ∉ [patchExt, ".md".toList]

/-- `patch_path.glob('**/*.patch')`, which finds directories too. -/
def patchPaths (repo : Tree Content) (folder : Path) : List Path :=
  (repo.files.keys.flatMap List.inits).dedup.filter fun path =>
    folder <+: path ∧ path ≠ folder ∧ patchExt <:+ fileName path

def copyOverlay (repo : Tree Content) (work : Tree Content) (path : Path) :
    Option (Tree Content) :=
  match repo.lookup path with
  | none => none
  | some content => work.put path content

/-- A directory is no patch. -/
def applyPatch (host : Host Content) (repo : Tree Content) (work : Tree Content) (path : Path) :
    Option (Tree Content) :=
  match repo.lookup path with
  | none => none
  | some content => host.gitApply content work

/-- `patch` -/
def patch (host : Host Content) (repo : Tree Content) (work : Tree Content) (folder : Path) :
    Option (Tree Content) := do
  let work ← (host.order (overlays repo folder)).foldlM (copyOverlay repo) work
  (host.order (patchPaths repo folder)).foldlM (applyPatch host repo) work

/-- `gen`, then `rm`, then `inst`: the work tree that comes out. -/
def genRmInst (host : Host Content) (z : Zephyr Content) (repo : Tree Content) :
    Option (Tree Content) := do
  let repo ← generatePatches host z repo
  targetDirs.foldlM (fun work dir => patch host repo work [dir]) (z.remove host).work

end Qapp.Overlay
