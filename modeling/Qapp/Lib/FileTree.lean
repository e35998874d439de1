import Mathlib.Data.List.AList

/-!
# Trees of files

The files of a directory by their paths. No file lies below another one, so a write fails
where a file is above the path or a directory in its place.
-/

structure FileTree (Part Content : Type) [DecidableEq Part] where
  files : AList fun _ : List Part => Content
  apart : ∀ p ∈ files, ∀ q ∈ files, p <+: q → p = q

namespace FileTree

variable {Part Content : Type} [DecidableEq Part]

def empty : FileTree Part Content := ⟨∅, by simp⟩

def lookup (tree : FileTree Part Content) (path : List Part) : Option Content :=
  tree.files.lookup path

/-- Nothing but a file of that path is in the way. -/
def Free (tree : FileTree Part Content) (path : List Part) : Prop :=
  ∀ other ∈ tree.files.keys, other <+: path ∨ path <+: other → other = path

instance (tree : FileTree Part Content) (path : List Part) : Decidable (tree.Free path) :=
  inferInstanceAs (Decidable (∀ other ∈ tree.files.keys, _ → _))

theorem insert_apart {tree : FileTree Part Content} {path : List Part} (free : tree.Free path)
    (content : Content) :
    ∀ p ∈ tree.files.insert path content, ∀ q ∈ tree.files.insert path content,
      p <+: q → p = q := by
  intro p p_mem q q_mem below
  rcases (AList.mem_insert _).mp p_mem with rfl | p_old
  · rcases (AList.mem_insert _).mp q_mem with rfl | q_old
    · rfl
    · exact (free q q_old (.inr below)).symm
  · rcases (AList.mem_insert _).mp q_mem with rfl | q_old
    · exact free p p_old (.inl below)
    · exact tree.apart p p_old q q_old below

/-- The file is written, over the one that was there. -/
def put (tree : FileTree Part Content) (path : List Part) (content : Content) :
    Option (FileTree Part Content) :=
  if free : tree.Free path then
    some ⟨tree.files.insert path content, insert_apart free content⟩
  else none

theorem mem_of_lookup {tree : FileTree Part Content} {path : List Part} {content : Content}
    (found : tree.lookup path = some content) : path ∈ tree.files := by
  apply AList.lookup_isSome.mp
  unfold lookup at found
  rw [found]
  rfl

theorem free_of_lookup {tree : FileTree Part Content} {path : List Part} {content : Content}
    (found : tree.lookup path = some content) : tree.Free path := by
  have path_mem := mem_of_lookup found
  intro other mem near
  rcases near with below | above
  · exact tree.apart other mem path path_mem below
  · exact (tree.apart path path_mem other mem above).symm

theorem free_iff {tree : FileTree Part Content} {path : List Part} :
    tree.Free path ↔ ∀ other content, tree.lookup other = some content →
      other <+: path ∨ path <+: other → other = path := by
  constructor
  · intro free other content found
    exact free other (AList.mem_keys.mp (mem_of_lookup found))
  · intro free other mem
    obtain ⟨content, found⟩ := Option.isSome_iff_exists.mp
      (AList.lookup_isSome.mpr (AList.mem_keys.mpr mem))
    exact free other content found

/-- What a write leaves. -/
theorem put_spec {tree : FileTree Part Content} {path : List Part} (free : tree.Free path)
    (content : Content) : ∃ after, tree.put path content = some after ∧
      after.lookup path = some content ∧
      ∀ other, other ≠ path → after.lookup other = tree.lookup other := by
  refine ⟨_, dif_pos free, AList.lookup_insert _, ?_⟩
  intro other ne
  exact AList.lookup_insert_ne ne

/-- `after` has the files in place of what the tree had at their paths. -/
structure Overlaid (tree : FileTree Part Content) (files : List (List Part × Content))
    (after : FileTree Part Content) : Prop where
  placed : ∀ file ∈ files, after.lookup file.1 = some file.2
  kept : ∀ path, path ∉ files.map Prod.fst → after.lookup path = tree.lookup path

/-- Files that can all be written, in any order. -/
structure Fits (tree : FileTree Part Content) (files : List (List Part × Content)) : Prop where
  distinct : (files.map Prod.fst).Nodup
  apart : ∀ f ∈ files, ∀ g ∈ files, f.1 <+: g.1 → f.1 = g.1
  free : ∀ f ∈ files, tree.Free f.1

theorem Fits.tail {tree after : FileTree Part Content} {file : List Part × Content}
    {files : List (List Part × Content)} (fits : tree.Fits (file :: files))
    (kept : ∀ other, other ≠ file.1 → after.lookup other = tree.lookup other) :
    after.Fits files := by
  constructor
  · exact (List.nodup_cons.mp fits.distinct).2
  · intro f f_mem g g_mem
    exact fits.apart f (List.mem_cons_of_mem _ f_mem) g (List.mem_cons_of_mem _ g_mem)
  · intro f f_mem
    have f_mem := List.mem_cons_of_mem file f_mem
    apply free_iff.mpr
    intro other content found near
    by_cases same : other = file.1
    · rw [same] at near ⊢
      rcases near with below | above
      · exact fits.apart file List.mem_cons_self f f_mem below
      · exact (fits.apart f f_mem file List.mem_cons_self above).symm
    · rw [kept other same] at found
      exact free_iff.mp (fits.free f f_mem) other content found near

/-- A step of a loop that writes one file or none. -/
def write (tree : FileTree Part Content) : Option (List Part × Content) →
    Option (FileTree Part Content)
  | none => some tree
  | some file => tree.put file.1 file.2

/-- A loop writes its files, if each step writes its own one as long as nothing else has
changed what was there. -/
theorem foldlM_overlaid {Item : Type} {items : List Item}
    {file : Item → Option (List Part × Content)}
    {step : FileTree Part Content → Item → Option (FileTree Part Content)}
    {tree : FileTree Part Content} (fits : tree.Fits (items.filterMap file))
    (steps : ∀ item ∈ items, ∀ t : FileTree Part Content,
      (∀ f, file item = some f → t.lookup f.1 = tree.lookup f.1) →
        step t item = t.write (file item)) :
    ∃ after, items.foldlM step tree = some after ∧
      tree.Overlaid (items.filterMap file) after := by
  induction items generalizing tree with
  | nil => exact ⟨tree, rfl, by simp, fun _ _ => rfl⟩
  | cons item items ih =>
    have first := steps item List.mem_cons_self tree fun _ _ => rfl
    have others := fun item mem => steps item (List.mem_cons_of_mem _ mem)
    rw [List.foldlM_cons, first]
    cases written : file item with
    | none =>
      rw [List.filterMap_cons_none written] at fits ⊢
      exact ih fits others
    | some f =>
      rw [List.filterMap_cons_some written] at fits ⊢
      obtain ⟨next, put, placed, kept⟩ := put_spec (fits.free f List.mem_cons_self) f.2
      have fresh := (List.nodup_cons.mp fits.distinct).1
      obtain ⟨after, run, overlaid⟩ := ih (fits.tail kept) (by
        intro item mem t same
        apply others item mem t
        intro g g_written
        have g_mem : g ∈ items.filterMap file := List.mem_filterMap.mpr ⟨item, mem, g_written⟩
        rw [same g g_written]
        apply kept
        intro eq
        exact fresh (eq ▸ List.mem_map_of_mem g_mem))
      refine ⟨after, ?_, ?_, ?_⟩
      · change (tree.put f.1 f.2 >>= _) = _
        rw [put]
        exact run
      · intro g mem
        rcases List.mem_cons.mp mem with rfl | mem
        · rw [overlaid.kept g.1 fresh, placed]
        · exact overlaid.placed g mem
      · intro path absent
        rw [List.map_cons, List.mem_cons, not_or] at absent
        rw [overlaid.kept path absent.2, kept path absent.1]

end FileTree
