import Qapp.Overlay.Script

namespace Qapp.Overlay

open Patch (lineBreak splitLines strip)

variable {Content : Type} {host : Host Content} {z : Zephyr Content}

/-! ## What the script reads of the status -/

theorem special_of_white {c : Char} (white : c.isWhitespace = true) (ne : c ≠ ' ') :
    special c = true := by
  unfold Char.isWhitespace at white
  simp only [Bool.or_eq_true, decide_eq_true_eq] at white
  rcases white with ((rfl | rfl) | rfl) | rfl
  · exact absurd rfl ne
  · decide
  · decide
  · decide

theorem str_ne_nil {path : Path} (clean : Clean path) : str path ≠ [] := by
  intro empty
  have whole := parts_str clean
  rw [empty] at whole
  exact clean.nonempty whole.symm

/-- Of a printed name only a space at its end can be stripped. -/
theorem cQuote_end {name : List Char} (nonempty : name ≠ []) (unspaced : name.getLast? ≠ some ' ') :
    ∃ front c, cQuote name = front ++ [c] ∧ c.isWhitespace = false := by
  unfold cQuote
  split
  · exact ⟨'"' :: name.flatMap escape, '"', rfl, rfl⟩
  · rename_i plain
    refine ⟨name.dropLast, name.getLast nonempty, (List.dropLast_append_getLast nonempty).symm, ?_⟩
    have mem := List.getLast_mem nonempty
    rw [List.getLast?_eq_some_getLast nonempty] at unspaced
    cases white : (name.getLast nonempty).isWhitespace with
    | false => rfl
    | true =>
      have ne : name.getLast nonempty ≠ ' ' := fun eq => unspaced (congrArg some eq)
      exact absurd (List.any_eq_true.mpr ⟨_, mem, special_of_white white ne⟩) plain

namespace Zephyr

theorem status_cases (z : Zephyr Content) (path : Path) :
    z.status path = 'M' ∧ (z.head.lookup path).isSome ∨
      z.status path = 'A' ∧ z.head.lookup path = none := by
  unfold status
  cases z.head.lookup path with
  | none => exact .inr ⟨rfl, rfl⟩
  | some content => exact .inl ⟨rfl, rfl⟩

theorem statusLine_unbroken (z : Zephyr Content) (file : Path × Content) :
    splitLines (z.statusLine file) = [z.statusLine file] := by
  apply Patch.splitLines_single (by simp [statusLine])
  have name := cQuote_unbroken (str file.1)
  have tab : lineBreak '\t' = false := rfl
  unfold statusLine
  rw [List.any_cons, List.any_cons, tab, name]
  rcases z.status_cases file.1 with ⟨letter, -⟩ | ⟨letter, -⟩
  · rw [letter]
    rfl
  · rw [letter]
    rfl

theorem splitTab_statusLine (z : Zephyr Content) (file : Path × Content) :
    splitTab (z.statusLine file) = some ([z.status file.1], cQuote (str file.1)) := by
  unfold splitTab statusLine
  rw [if_pos (by simp)]
  rcases z.status_cases file.1 with ⟨letter, -⟩ | ⟨letter, -⟩
  · rw [letter]
    rfl
  · rw [letter]
    rfl

theorem statusLine_ends (z : Zephyr Content) {file : Path × Content} (clean : Clean file.1)
    (unspaced : (str file.1).getLast? ≠ some ' ') :
    Patch.Marker.Ends (z.statusLine file ++ ['\n']) := by
  obtain ⟨front, c, printed, kept⟩ := cQuote_end (str_ne_nil clean) unspaced
  refine ⟨z.status file.1 :: '\t' :: front, c, ?_, kept⟩
  unfold statusLine
  rw [printed]
  rfl

end Zephyr

/-- The file of the repository that a staged file leads to. -/
def Zephyr.artefact (host : Host Content) (z : Zephyr Content) (file : Path × Content) :
    Option (Path × Content) :=
  if !isTarget file.1 then none
  else if (z.head.lookup file.1).isSome then some (addPatch file.1, host.diff [z.change file])
  else some file

theorem Zephyr.artefact_eq_some {file artefact : Path × Content}
    (eq : z.artefact host file = some artefact) : isTarget file.1 ∧
      ((z.head.lookup file.1).isSome ∧
          artefact = (addPatch file.1, host.diff [z.change file]) ∨
        z.head.lookup file.1 = none ∧ artefact = file) := by
  unfold Zephyr.artefact at eq
  split at eq
  · cases eq
  · rename_i target
    split at eq
    · rename_i modified
      exact ⟨by simpa using target, .inl ⟨modified, (Option.some.inj eq).symm⟩⟩
    · rename_i added
      exact ⟨by simpa using target, .inr ⟨by simpa using added, (Option.some.inj eq).symm⟩⟩

variable [DecidableEq Content]

/-- `git apply` undoes `git diff` on each single file that is staged as modified. -/
def Zephyr.Inverse (host : Host Content) (z : Zephyr Content) : Prop :=
  ∀ file ∈ z.staged, ∀ old, z.head.lookup file.1 = some old → ∀ tree : Tree Content,
    tree.lookup file.1 = some old →
      host.gitApply (host.diff [(file.1, some old, file.2)]) tree = tree.put file.1 file.2

/-- The staged sets that the two scripts' naming rules and text files leave alone. -/
structure Zephyr.Restorable (host : Host Content) (z : Zephyr Content) : Prop where
  printed : ∀ file ∈ z.staged, isTarget file.1 → (str file.1).any special = false
  below : ∀ file ∈ z.staged, isTarget file.1 → 2 ≤ file.1.length
  unstripped : ∀ file ∈ z.staged.getLast?, (str file.1).getLast? ≠ some ' '
  noPatchDir : ∀ file ∈ z.staged, isTarget file.1 → ∀ dir ∈ file.1.dropLast, ¬patchExt <:+ dir
  /-- The work tree has an added file as it is staged. -/
  current : ∀ file ∈ z.staged, isTarget file.1 → z.head.lookup file.1 = none →
    z.work.lookup file.1 = some file.2
  noPatch : ∀ file ∈ z.staged, isTarget file.1 → z.head.lookup file.1 = none →
    ¬patchExt <:+ fileName file.1
  alone : ∀ file ∈ z.staged, isTarget file.1 → (z.head.lookup file.1).isSome →
    ∀ other ∈ z.staged, host.pathspec (str file.1) other.1 → other.1 = file.1
  text : ∀ file ∈ z.staged, isTarget file.1 → (z.head.lookup file.1).isSome →
    ∃ text, host.decode (host.diff [z.change file]) = some text ∧ '\r' ∉ text

namespace Zephyr

theorem mem_staged {file : Path × Content} :
    file ∈ z.staged ↔ z.index.lookup file.1 = some file.2 ∧ z.head.lookup file.1 ≠ some file.2 := by
  unfold staged
  constructor
  · intro mem
    obtain ⟨entry, listed, rfl⟩ := List.mem_map.mp mem
    obtain ⟨entry_mem, changed⟩ := List.mem_filter.mp listed
    exact ⟨AList.mem_lookup_iff.mpr entry_mem, of_decide_eq_true changed⟩
  · rintro ⟨found, changed⟩
    apply List.mem_map.mpr
    refine ⟨⟨file.1, file.2⟩, ?_, rfl⟩
    exact List.mem_filter.mpr ⟨AList.mem_lookup_iff.mp found, decide_eq_true changed⟩

theorem staged_distinct (z : Zephyr Content) : (z.staged.map Prod.fst).Nodup := by
  unfold staged
  rw [List.map_map]
  exact z.index.files.keys_nodup.sublist (List.filter_sublist.map Sigma.fst)

theorem mem_index {file : Path × Content} (mem : file ∈ z.staged) : file.1 ∈ z.index.files :=
  FileTree.mem_of_lookup (mem_staged.mp mem).1

theorem staged_clean {file : Path × Content} (mem : file ∈ z.staged) : Clean file.1 :=
  z.clean file.1 (mem_index mem)

theorem staged_apart {f g : Path × Content} (f_mem : f ∈ z.staged) (g_mem : g ∈ z.staged)
    (below : f.1 <+: g.1) : f.1 = g.1 :=
  z.index.apart f.1 (mem_index f_mem) g.1 (mem_index g_mem) below

/-- A staged file is known by its path. -/
theorem staged_unique {f g : Path × Content} (f_mem : f ∈ z.staged) (g_mem : g ∈ z.staged)
    (same : f.1 = g.1) : f = g := by
  have f_found := (mem_staged.mp f_mem).1
  have g_found := (mem_staged.mp g_mem).1
  rw [same, g_found] at f_found
  exact Prod.ext same (Option.some.inj f_found).symm

theorem nameStatus_lines
    (unstripped : ∀ file ∈ z.staged.getLast?, (str file.1).getLast? ≠ some ' ') :
    splitLines (strip z.nameStatus) = z.staged.map z.statusLine := by
  have lines : splitLines z.nameStatus = z.staged.map z.statusLine := by
    unfold nameStatus
    rw [Patch.splitLines_flatMap]
    simp only [statusLine_unbroken]
    exact List.map_eq_flatMap.symm
  rw [← lines]
  obtain none | ⟨files, last, files_eq⟩ := List.eq_nil_or_concat z.staged
  · unfold nameStatus
    rw [none]
    rfl
  · rw [List.concat_eq_append] at files_eq
    have mem : last ∈ z.staged := by simp [files_eq]
    apply Patch.Marker.Ends.splitLines_strip
    · unfold nameStatus
      rw [files_eq, List.flatMap_append, List.flatMap_singleton]
      apply Patch.Marker.Ends.append
      apply z.statusLine_ends (staged_clean mem)
      apply unstripped
      simp [files_eq]
    · cases staged_eq : z.staged with
      | nil => simp [staged_eq] at mem
      | cons first rest =>
        unfold nameStatus statusLine
        rw [staged_eq, List.flatMap_cons]
        rcases z.status_cases first.1 with ⟨letter, -⟩ | ⟨letter, -⟩
        · rw [letter]
          rfl
        · rw [letter]
          rfl

end Zephyr

/-! ## What one line adds to the repository -/

/-- A quoted name is none of a target directory. -/
theorem isTarget_quoted {name : List Char} (quoted : name.any special = true) :
    isTarget (parts (cQuote name)) = false := by
  unfold cQuote
  rw [if_pos quoted]
  unfold parts
  rw [List.cons_append, List.splitOn_eq_splitOnP, List.splitOnP_cons_eq_if_modifyHead,
    if_neg (by decide)]
  cases pieces : (name.flatMap escape ++ ['"']).splitOnP (· == '/') with
  | nil => exact absurd pieces (List.splitOnP_ne_nil _ _)
  | cons piece rest =>
    rw [List.modifyHead_cons, List.filter_cons_of_pos (by simp)]
    have other : ('"' :: piece) ∉ targetDirs := by
      intro mem
      rcases List.mem_cons.mp mem with eq | mem
      · exact absurd (List.cons.inj eq).1 (by decide)
      · rcases List.mem_cons.mp mem with eq | mem
        · exact absurd (List.cons.inj eq).1 (by decide)
        · cases mem
    exact decide_eq_false other

theorem isTarget_printed {path : Path} (clean : Clean path) (other : isTarget path = false) :
    isTarget (parts (cQuote (str path))) = false := by
  cases quoted : (str path).any special with
  | true => exact isTarget_quoted quoted
  | false =>
    unfold cQuote
    rw [if_neg (by simp [quoted]), parts_str clean]
    exact other

theorem universalNewlines_id {text : List Char} (plain : '\r' ∉ text) :
    universalNewlines text = text := by
  fun_induction universalNewlines text with
  | case1 text ih => simp at plain
  | case2 text _ ih => simp at plain
  | case3 c text _ _ ih =>
    rw [ih fun mem => plain (List.mem_cons_of_mem _ mem)]
  | case4 => rfl

namespace Zephyr

theorem diffCached_alone (restorable : z.Restorable host) {file : Path × Content}
    (mem : file ∈ z.staged) (target : isTarget file.1) (modified : (z.head.lookup file.1).isSome) :
    z.diffCached host (str file.1) = host.diff [z.change file] := by
  have single : (z.staged.filter fun other => host.pathspec (str file.1) other.1) = [file] := by
    apply List.perm_singleton.mp
    apply (List.perm_ext_iff_of_nodup (z.staged_distinct.of_map.filter _)
      (List.nodup_singleton _)).mpr
    intro other
    rw [List.mem_filter, List.mem_singleton]
    constructor
    · rintro ⟨other_mem, found⟩
      have same := restorable.alone file mem target modified other other_mem found
      exact staged_unique other_mem mem same
    · rintro rfl
      exact ⟨mem, host.pathspec_self _⟩
  unfold diffCached
  rw [single]
  rfl

theorem diff_text (inverse : z.Inverse host) (restorable : z.Restorable host)
    {file : Path × Content} (mem : file ∈ z.staged) (target : isTarget file.1)
    (modified : (z.head.lookup file.1).isSome) :
    ∃ text, host.decode (z.diffCached host (str file.1)) = some text ∧
      universalNewlines text = text ∧ text ≠ [] ∧
      host.encode text = host.diff [z.change file] := by
  obtain ⟨text, decoded, plain⟩ := restorable.text file mem target modified
  have encoded := host.encode_decode _ _ decoded
  refine ⟨text, ?_, universalNewlines_id plain, ?_, encoded⟩
  · rw [diffCached_alone restorable mem target modified]
    exact decoded
  · rintro rfl
    obtain ⟨old, found⟩ := Option.isSome_iff_exists.mp modified
    have applied := inverse file mem old found z.head found
    unfold change at encoded
    rw [found] at encoded
    rw [← encoded, host.apply_empty] at applied
    obtain ⟨after, put, -⟩ := FileTree.put_spec (FileTree.free_of_lookup found) file.2
    rw [put] at applied
    cases applied

theorem generateLine_statusLine (inverse : z.Inverse host) (restorable : z.Restorable host)
    {file : Path × Content} (mem : file ∈ z.staged) (repo : Tree Content) :
    generateLine host z repo (z.statusLine file) = repo.write (z.artefact host file) := by
  have clean := staged_clean mem
  unfold generateLine artefact
  rw [splitTab_statusLine]
  dsimp only
  cases target : isTarget file.1 with
  | false =>
    rw [isTarget_printed clean target]
    rfl
  | true =>
    have printed : cQuote (str file.1) = str file.1 := by
      unfold cQuote
      rw [restorable.printed file mem target]
      rfl
    rw [printed, parts_str clean, target]
    rcases z.status_cases file.1 with ⟨letter, modified⟩ | ⟨letter, added⟩
    · obtain ⟨text, decoded, plain, nonempty, encoded⟩ :=
        diff_text inverse restorable mem target modified
      rw [letter, modified, decoded]
      dsimp only
      rw [plain, if_pos nonempty, encoded, ← str_addPatch clean.nonempty,
        parts_str clean.addPatch]
      rfl
    · rw [letter, added, restorable.current file mem target added]
      rfl

theorem artefact_apart (restorable : z.Restorable host) {file other f g : Path × Content}
    (mem : file ∈ z.staged) (g_mem : other ∈ z.staged) (f_eq : z.artefact host file = some f)
    (g_eq : z.artefact host other = some g) (below : f.1 <+: g.1) : file = other := by
  have clean := staged_clean mem
  have other_clean := staged_clean g_mem
  obtain ⟨target, rest⟩ := artefact_eq_some f_eq
  obtain ⟨other_target, other_rest⟩ := artefact_eq_some g_eq
  apply staged_unique mem g_mem
  rcases rest with ⟨modified, rfl⟩ | ⟨added, rfl⟩
  · rcases other_rest with ⟨other_modified, rfl⟩ | ⟨other_added, rfl⟩
    · by_cases same : addPatch file.1 = addPatch other.1
      · exact addPatch_injective clean.nonempty other_clean.nonempty same
      · have above := prefix_addPatch other_clean.nonempty below same
        obtain ⟨dir, dir_mem, named⟩ := addPatch_prefix clean.nonempty above
        exact absurd named (restorable.noPatchDir other g_mem other_target dir dir_mem)
    · obtain ⟨part, part_mem, named⟩ := addPatch_prefix clean.nonempty below
      rcases part_cases part_mem with dir_mem | rfl
      · exact absurd named (restorable.noPatchDir g g_mem other_target part dir_mem)
      · exact absurd named (restorable.noPatch g g_mem other_target other_added)
  · rcases other_rest with ⟨other_modified, rfl⟩ | ⟨other_added, rfl⟩
    · by_cases same : f.1 = addPatch other.1
      · have named : patchExt <:+ fileName f.1 := by
          rw [same, fileName_addPatch other_clean.nonempty]
          exact List.suffix_append _ _
        exact absurd named (restorable.noPatch f mem target added)
      · have above := prefix_addPatch other_clean.nonempty below same
        exact staged_apart mem g_mem (above.trans (List.dropLast_prefix _))
    · exact staged_apart mem g_mem below

end Zephyr

/-- Nothing is stored for the two folders. -/
def Fresh (repo : Tree Content) : Prop := ∀ path ∈ repo.files, path ≠ [] ∧ isTarget path = false

theorem isTarget_near {p q : Path} (p_nonempty : p ≠ []) (q_nonempty : q ≠ [])
    (near : p <+: q ∨ q <+: p) : isTarget p = isTarget q := by
  cases p with
  | nil => exact absurd rfl p_nonempty
  | cons dir p =>
    cases q with
    | nil => exact absurd rfl q_nonempty
    | cons dir' q =>
      have same : dir = dir' := by
        rcases near with below | above
        · exact (List.cons_prefix_cons.mp below).1
        · exact (List.cons_prefix_cons.mp above).1.symm
      rw [same]
      rfl

theorem isTarget_addPatch {path : Path} (long : 2 ≤ path.length) :
    isTarget (addPatch path) = isTarget path := by
  match path, long with
  | dir :: name :: rest, _ => rfl

namespace Zephyr

theorem artefact_target (restorable : z.Restorable host) {file artefact : Path × Content}
    (mem : file ∈ z.staged) (eq : z.artefact host file = some artefact) :
    artefact.1 ≠ [] ∧ isTarget artefact.1 = true := by
  obtain ⟨target, ⟨_, rfl⟩ | ⟨_, rfl⟩⟩ := artefact_eq_some eq
  · constructor
    · exact addPatch_ne_nil _
    · rw [isTarget_addPatch (restorable.below file mem target)]
      exact target
  · exact ⟨(staged_clean mem).nonempty, target⟩

theorem artefacts_fit (restorable : z.Restorable host) {repo : Tree Content} (fresh : Fresh repo) :
    repo.Fits (z.staged.filterMap (z.artefact host)) := by
  constructor
  · apply List.pairwise_map.mpr
    apply List.pairwise_filterMap.mpr
    apply z.staged_distinct.of_map.imp_of_mem
    intro file other mem other_mem ne f f_eq g g_eq same
    apply ne
    have below : f.1 <+: g.1 := by simp [same]
    exact artefact_apart restorable mem other_mem f_eq g_eq below
  · intro f f_mem g g_mem below
    obtain ⟨file, mem, f_eq⟩ := List.mem_filterMap.mp f_mem
    obtain ⟨other, other_mem, g_eq⟩ := List.mem_filterMap.mp g_mem
    have same := artefact_apart restorable mem other_mem f_eq g_eq below
    rw [same, g_eq] at f_eq
    rw [Option.some.inj f_eq]
  · intro f f_mem path path_mem near
    obtain ⟨file, mem, f_eq⟩ := List.mem_filterMap.mp f_mem
    obtain ⟨nonempty, target⟩ := artefact_target restorable mem f_eq
    obtain ⟨path_nonempty, other⟩ := fresh path (AList.mem_keys.mpr path_mem)
    rw [isTarget_near path_nonempty nonempty near, target] at other
    cases other

/-- The repository holds what the staged files lead to, and nothing else under the two folders. -/
structure Stored (host : Host Content) (z : Zephyr Content) (store : Tree Content) : Prop where
  holds : ∀ file ∈ z.staged, ∀ artefact, z.artefact host file = some artefact →
    store.lookup artefact.1 = some artefact.2
  only : ∀ path content, isTarget path = true → store.lookup path = some content →
    ∃ file ∈ z.staged, z.artefact host file = some (path, content)

theorem generatePatches_stores (inverse : z.Inverse host) (restorable : z.Restorable host)
    {repo : Tree Content} (fresh : Fresh repo) :
    ∃ store, generatePatches host z repo = some store ∧ z.Stored host store := by
  obtain ⟨store, run, overlaid⟩ : ∃ store,
      z.staged.foldlM (fun repo file => generateLine host z repo (z.statusLine file)) repo =
        some store ∧ repo.Overlaid (z.staged.filterMap (z.artefact host)) store := by
    apply FileTree.foldlM_overlaid (artefacts_fit restorable fresh)
    intro file mem t _
    exact generateLine_statusLine inverse restorable mem t
  refine ⟨store, ?_, ?_, ?_⟩
  · unfold generatePatches
    rw [nameStatus_lines restorable.unstripped, List.foldlM_map]
    exact run
  · intro file mem artefact eq
    exact overlaid.placed artefact (List.mem_filterMap.mpr ⟨file, mem, eq⟩)
  · intro path content target found
    by_cases stored : path ∈ (z.staged.filterMap (z.artefact host)).map Prod.fst
    · obtain ⟨artefact, listed, rfl⟩ := List.mem_map.mp stored
      rw [overlaid.placed artefact listed] at found
      obtain ⟨file, mem, eq⟩ := List.mem_filterMap.mp listed
      refine ⟨file, mem, ?_⟩
      rw [eq, ← Option.some.inj found]
    · rw [overlaid.kept path stored] at found
      rw [(fresh path (FileTree.mem_of_lookup found)).2] at target
      cases target

end Zephyr

end Qapp.Overlay
