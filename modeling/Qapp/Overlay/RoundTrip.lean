import Qapp.Overlay.Generate

namespace Qapp.Overlay

variable {Content : Type} {host : Host Content} {z : Zephyr Content}
variable {store work : Tree Content} {dir : Name}

theorem isTarget_folder {path : Path} (target : dir ∈ targetDirs) (below : [dir] <+: path) :
    isTarget path = true := by
  obtain ⟨rest, rfl⟩ := below
  exact decide_eq_true target

/-- The file of the repository at a path. -/
def entry (store : Tree Content) (path : Path) : Option (Path × Content) :=
  (store.lookup path).map fun content => (path, content)

theorem entry_eq_some {path : Path} {file : Path × Content} (eq : entry store path = some file) :
    file.1 = path ∧ store.lookup path = some file.2 := by
  obtain ⟨content, found, rfl⟩ := Option.map_eq_some_iff.mp eq
  exact ⟨rfl, found⟩

theorem addPatch_below {path : Path} (long : 2 ≤ path.length) (below : [dir] <+: addPatch path) :
    [dir] <+: path := by
  match path, long, below with
  | first :: name :: rest, _, below =>
    exact List.cons_prefix_cons.mpr ⟨(List.cons_prefix_cons.mp below).1, List.nil_prefix⟩

namespace Zephyr

/-! ## What `remove` leaves -/

/-- A work tree with nothing else than the files of the index and what was there before. -/
def Within (z : Zephyr Content) (work : Tree Content) : Prop :=
  ∀ path content, work.lookup path = some content → path ∈ z.index.files ∨ path ∈ z.work.files

theorem leftovers_kept (files : List (Path × Content)) (tree : Tree Content) {path : Path}
    (absent : path ∉ files.map Prod.fst) :
    (files.foldl (fun tree file => (tree.put file.1 file.2).getD tree) tree).lookup path =
      tree.lookup path := by
  induction files generalizing tree with
  | nil => rfl
  | cons file files ih =>
    rw [List.map_cons, List.mem_cons, not_or] at absent
    rw [List.foldl_cons, ih _ absent.2]
    by_cases free : tree.Free file.1
    · obtain ⟨after, put, -, kept⟩ := FileTree.put_spec free file.2
      rw [put]
      exact kept path absent.1
    · unfold FileTree.put
      rw [dif_neg free]
      rfl

theorem leftovers_path {path : Path} (mem : path ∈ (z.leftovers host).map Prod.fst) :
    path ∈ z.work.files ∧ z.index.lookup path = none := by
  obtain ⟨f, f_mem, rfl⟩ := List.mem_map.mp mem
  obtain ⟨file, listed, rfl⟩ := List.mem_map.mp f_mem
  obtain ⟨file_mem, untracked⟩ := List.mem_filter.mp listed
  constructor
  · exact FileTree.mem_of_lookup (AList.mem_lookup_iff.mpr file_mem)
  · exact Option.isNone_iff_eq_none.mp (of_decide_eq_true untracked).1

theorem remove_head {path : Path} (mem : path ∈ z.index.files) :
    (z.remove host).work.lookup path = z.head.lookup path := by
  apply leftovers_kept
  intro listed
  have untracked := (leftovers_path listed).2
  exact AList.lookup_eq_none.mp untracked mem

theorem remove_within (z : Zephyr Content) : z.Within (z.remove host).work := by
  intro path content found
  by_cases listed : path ∈ (z.leftovers host).map Prod.fst
  · exact .inr (leftovers_path listed).1
  · have kept : (z.remove host).work.lookup path = z.head.lookup path :=
      leftovers_kept _ _ listed
    rw [kept] at found
    exact .inl (z.kept path (FileTree.mem_of_lookup found))

end Zephyr

variable [DecidableEq Content]

namespace Zephyr

/-! ## What the folders of the repository hold -/

theorem mem_overlays (stored : z.Stored host store) (target : dir ∈ targetDirs) {path : Path} (mem : path ∈ overlays store [dir]) :
    ∃ file ∈ z.staged, [dir] <+: file.1 ∧ z.head.lookup file.1 = none ∧ file.1 = path ∧
      store.lookup path = some file.2 := by
  obtain ⟨key, listed⟩ := List.mem_filter.mp mem
  obtain ⟨below, -, copied⟩ := of_decide_eq_true listed
  obtain ⟨content, found⟩ := Option.isSome_iff_exists.mp
    (AList.lookup_isSome.mpr (AList.mem_keys.mpr key))
  obtain ⟨file, staged, eq⟩ := stored.only path content (isTarget_folder target below) found
  obtain ⟨-, ⟨-, artefact⟩ | ⟨added, artefact⟩⟩ := artefact_eq_some eq
  · have clean := staged_clean staged
    have named := (clean.named _ (fileName_mem clean.nonempty)).1
    rw [(Prod.mk.inj artefact).1, fileName_addPatch clean.nonempty, suffix_patch named] at copied
    exact absurd List.mem_cons_self copied
  · rw [← artefact] at added staged
    exact ⟨(path, content), staged, below, added, rfl, found⟩

theorem overlays_mem (restorable : z.Restorable host) (stored : z.Stored host store)
    (target : dir ∈ targetDirs) {file : Path × Content} (mem : file ∈ z.staged)
    (below : [dir] <+: file.1) (added : z.head.lookup file.1 = none)
    (copied : suffix (fileName file.1) ≠ ".md".toList) :
    file.1 ∈ overlays store [dir] ∧ store.lookup file.1 = some file.2 := by
  have isTarget := isTarget_folder target below
  have eq : z.artefact host file = some file := by
    unfold artefact
    rw [isTarget, added]
    rfl
  have found := stored.holds file mem file eq
  refine ⟨?_, found⟩
  apply List.mem_filter.mpr
  refine ⟨AList.mem_keys.mp (FileTree.mem_of_lookup found), decide_eq_true ⟨below, ?_, ?_⟩⟩
  · intro same
    have long := restorable.below file mem isTarget
    rw [same] at long
    exact absurd long (by simp)
  · intro listed
    rcases List.mem_cons.mp listed with patch | listed
    · exact restorable.noPatch file mem isTarget added (patch_of_suffix patch)
    · exact copied (List.mem_singleton.mp listed)

theorem mem_patchPaths (restorable : z.Restorable host) (stored : z.Stored host store)
    (target : dir ∈ targetDirs) {path : Path} (mem : path ∈ patchPaths store [dir]) :
    ∃ file ∈ z.staged, [dir] <+: file.1 ∧ (z.head.lookup file.1).isSome ∧
      addPatch file.1 = path ∧ store.lookup path = some (host.diff [z.change file]) := by
  obtain ⟨found, listed⟩ := List.mem_filter.mp mem
  obtain ⟨below, -, named⟩ := of_decide_eq_true listed
  obtain ⟨key, key_mem, front⟩ := List.mem_flatMap.mp (List.mem_dedup.mp found)
  have front := (List.mem_inits _ _).mp front
  have nonempty : path ≠ [] := by
    rintro rfl
    exact absurd below (by simp)
  obtain ⟨content, found⟩ := Option.isSome_iff_exists.mp
    (AList.lookup_isSome.mpr (AList.mem_keys.mpr key_mem))
  have isTarget := isTarget_folder target (below.trans front)
  obtain ⟨file, staged, eq⟩ := stored.only key content isTarget found
  have clean := staged_clean staged
  have last := fileName_mem nonempty
  obtain ⟨file_target, ⟨modified, artefact⟩ | ⟨added, artefact⟩⟩ := artefact_eq_some eq
  · obtain ⟨rfl, rfl⟩ := Prod.mk.inj artefact
    by_cases whole : path = addPatch file.1
    · rw [whole] at below ⊢
      have inside := addPatch_below (restorable.below file staged file_target) below
      exact ⟨file, staged, inside, modified, rfl, found⟩
    · have dir_mem := (prefix_addPatch clean.nonempty front whole).subset last
      exact absurd named (restorable.noPatchDir file staged file_target _ dir_mem)
  · -- an added file has no part that ends like a patch
    rw [← artefact] at added staged
    rcases part_cases (front.subset last) with dir_mem | eq
    · exact absurd named (restorable.noPatchDir _ staged isTarget _ dir_mem)
    · rw [eq] at named
      exact absurd named (restorable.noPatch _ staged isTarget added)

theorem patchPaths_mem (restorable : z.Restorable host) (stored : z.Stored host store)
    (target : dir ∈ targetDirs) {file : Path × Content} (mem : file ∈ z.staged)
    (below : [dir] <+: file.1) (modified : (z.head.lookup file.1).isSome) :
    addPatch file.1 ∈ patchPaths store [dir] := by
  have isTarget := isTarget_folder target below
  have clean := staged_clean mem
  have eq : z.artefact host file = some (addPatch file.1, host.diff [z.change file]) := by
    unfold artefact
    rw [isTarget, modified]
    rfl
  have found := stored.holds file mem _ eq
  have key := AList.mem_keys.mp (FileTree.mem_of_lookup found)
  have long := restorable.below file mem isTarget
  apply List.mem_filter.mpr
  constructor
  · apply List.mem_dedup.mpr
    exact List.mem_flatMap.mpr ⟨_, key, (List.mem_inits _ _).mpr (List.prefix_refl _)⟩
  · apply decide_eq_true
    refine ⟨?_, ?_, ?_⟩
    · match file.1, below, long with
      | first :: name :: rest, below, _ =>
        exact List.cons_prefix_cons.mpr ⟨(List.cons_prefix_cons.mp below).1, List.nil_prefix⟩
    · intro same
      have length := congrArg List.length same
      rw [addPatch_eq clean.nonempty, List.length_append, List.length_dropLast] at length
      simp at length
      omega
    · rw [fileName_addPatch clean.nonempty]
      exact List.suffix_append _ _

/-! ## What `patch` does with a folder -/

/-- Nothing stands in the way of an added file. -/
theorem Within.free (within : z.Within work) (restorable : z.Restorable host)
    {file : Path × Content} (mem : file ∈ z.staged) (target : isTarget file.1)
    (added : z.head.lookup file.1 = none) : work.Free file.1 := by
  apply FileTree.free_iff.mpr
  intro other content found near
  rcases within other content found with indexed | left_over
  · rcases near with below | above
    · exact z.index.apart other indexed file.1 (mem_index mem) below
    · exact (z.index.apart file.1 (mem_index mem) other indexed above).symm
  · have present := FileTree.mem_of_lookup (restorable.current file mem target added)
    rcases near with below | above
    · exact z.work.apart other left_over file.1 present below
    · exact (z.work.apart file.1 present other left_over above).symm

theorem overlays_fit (restorable : z.Restorable host) (stored : z.Stored host store)
    (target : dir ∈ targetDirs) (within : z.Within work) :
    work.Fits ((host.order (overlays store [dir])).filterMap (entry store)) := by
  have order := host.order_perm (overlays store [dir])
  have distinct : (host.order (overlays store [dir])).Nodup :=
    order.nodup_iff.mpr (store.files.keys_nodup.filter _)
  constructor
  · apply List.pairwise_map.mpr
    apply List.pairwise_filterMap.mpr
    apply distinct.imp
    intro p q ne f f_eq g g_eq same
    rw [(entry_eq_some f_eq).1, (entry_eq_some g_eq).1] at same
    exact ne same
  · intro f f_mem g g_mem below
    obtain ⟨p, -, f_eq⟩ := List.mem_filterMap.mp f_mem
    obtain ⟨q, -, g_eq⟩ := List.mem_filterMap.mp g_mem
    obtain ⟨rfl, f_found⟩ := entry_eq_some f_eq
    obtain ⟨rfl, g_found⟩ := entry_eq_some g_eq
    exact store.apart f.1 (FileTree.mem_of_lookup f_found) g.1 (FileTree.mem_of_lookup g_found)
      below
  · intro f f_mem
    obtain ⟨path, path_mem, f_eq⟩ := List.mem_filterMap.mp f_mem
    obtain ⟨file, mem, inside, added, rfl, -⟩ :=
      mem_overlays stored target (order.mem_iff.mp path_mem)
    rw [(entry_eq_some f_eq).1]
    exact within.free restorable mem (isTarget_folder target inside) added

/-- The staged file that a patch is for. -/
def patched (z : Zephyr Content) (path : Path) : Option (Path × Content) :=
  z.staged.find? fun file => addPatch file.1 = path

theorem patched_eq_some {path : Path} {file : Path × Content} (eq : z.patched path = some file) :
    file ∈ z.staged ∧ addPatch file.1 = path := by
  unfold patched at eq
  exact ⟨List.mem_of_find?_eq_some eq, by simpa using List.find?_some eq⟩

theorem patched_eq {file : Path × Content} (mem : file ∈ z.staged) :
    z.patched (addPatch file.1) = some file := by
  have found : (z.patched (addPatch file.1)).isSome := by
    unfold patched
    apply List.find?_isSome.mpr
    exact ⟨file, mem, decide_eq_true rfl⟩
  obtain ⟨other, found⟩ := Option.isSome_iff_exists.mp found
  obtain ⟨other_mem, same⟩ := patched_eq_some found
  have nonempty := (staged_clean mem).nonempty
  have other_nonempty := (staged_clean other_mem).nonempty
  rw [found, staged_unique other_mem mem (addPatch_injective other_nonempty nonempty same)]

/-- The modified files of a folder are still as `HEAD` has them. -/
def Unpatched (z : Zephyr Content) (dir : Name) (work : Tree Content) : Prop :=
  ∀ file ∈ z.staged, [dir] <+: file.1 → (z.head.lookup file.1).isSome →
    work.lookup file.1 = z.head.lookup file.1

theorem patches_fit (restorable : z.Restorable host) (stored : z.Stored host store)
    (target : dir ∈ targetDirs) (unpatched : z.Unpatched dir work) :
    work.Fits ((host.order (patchPaths store [dir])).filterMap z.patched) := by
  have order := host.order_perm (patchPaths store [dir])
  have distinct : (host.order (patchPaths store [dir])).Nodup :=
    order.nodup_iff.mpr ((List.nodup_dedup _).filter _)
  constructor
  · apply List.pairwise_map.mpr
    apply List.pairwise_filterMap.mpr
    apply distinct.imp
    intro p q ne f f_eq g g_eq same
    rw [← (patched_eq_some f_eq).2, ← (patched_eq_some g_eq).2, same] at ne
    exact ne rfl
  · intro f f_mem g g_mem below
    obtain ⟨p, -, f_eq⟩ := List.mem_filterMap.mp f_mem
    obtain ⟨q, -, g_eq⟩ := List.mem_filterMap.mp g_mem
    exact staged_apart (patched_eq_some f_eq).1 (patched_eq_some g_eq).1 below
  · intro f f_mem
    obtain ⟨path, path_mem, f_eq⟩ := List.mem_filterMap.mp f_mem
    obtain ⟨file, mem, inside, modified, rfl, -⟩ :=
      mem_patchPaths restorable stored target (order.mem_iff.mp path_mem)
    rw [patched_eq mem] at f_eq
    rw [← Option.some.inj f_eq]
    obtain ⟨old, found⟩ := Option.isSome_iff_exists.mp modified
    rw [← unpatched file mem inside modified] at found
    exact FileTree.free_of_lookup found

/-- `patch` brings what is staged in a folder into the work tree, and changes nothing else. -/
structure Patches (z : Zephyr Content) (dir : Name)
    (work after : Tree Content) : Prop where
  restores : ∀ file ∈ z.staged, [dir] <+: file.1 →
    (z.head.lookup file.1 = none → suffix (fileName file.1) ≠ ".md".toList) →
      after.lookup file.1 = some file.2
  keeps : ∀ path, ¬[dir] <+: path → after.lookup path = work.lookup path
  within : z.Within after

/-- Copying writes the stored files of the folder. -/
theorem copies_overlaid (restorable : z.Restorable host) (stored : z.Stored host store)
    (target : dir ∈ targetDirs) (within : z.Within work) :
    ∃ copied, (host.order (overlays store [dir])).foldlM (copyOverlay store) work = some copied ∧
      work.Overlaid ((host.order (overlays store [dir])).filterMap (entry store)) copied := by
  apply FileTree.foldlM_overlaid (overlays_fit restorable stored target within)
  intro path mem t _
  have listed := (host.order_perm _).mem_iff.mp mem
  obtain ⟨file, -, -, -, -, found⟩ := mem_overlays stored target listed
  unfold copyOverlay entry
  rw [found]
  rfl

/-- Applying writes the modified files of the folder. -/
theorem applies_overlaid (inverse : z.Inverse host) (restorable : z.Restorable host)
    (stored : z.Stored host store) (target : dir ∈ targetDirs)
    (unpatched : z.Unpatched dir work) :
    ∃ after, (host.order (patchPaths store [dir])).foldlM (applyPatch host store) work =
        some after ∧
      work.Overlaid ((host.order (patchPaths store [dir])).filterMap z.patched) after := by
  apply FileTree.foldlM_overlaid (patches_fit restorable stored target unpatched)
  intro path path_mem t same
  have listed := (host.order_perm _).mem_iff.mp path_mem
  obtain ⟨file, mem, inside, modified, rfl, found⟩ :=
    mem_patchPaths restorable stored target listed
  obtain ⟨old, old_found⟩ := Option.isSome_iff_exists.mp modified
  have current : t.lookup file.1 = some old := by
    rw [same file (patched_eq mem), unpatched file mem inside modified, old_found]
  have applied := inverse file mem old old_found t current
  unfold applyPatch
  rw [found, patched_eq mem]
  unfold change
  rw [old_found]
  exact applied

theorem copied_path (stored : z.Stored host store) (target : dir ∈ targetDirs) {path : Path}
    (mem : path ∈ ((host.order (overlays store [dir])).filterMap (entry store)).map Prod.fst) :
    ∃ file ∈ z.staged, [dir] <+: file.1 ∧ z.head.lookup file.1 = none ∧ file.1 = path := by
  obtain ⟨f, f_mem, rfl⟩ := List.mem_map.mp mem
  obtain ⟨path, path_mem, eq⟩ := List.mem_filterMap.mp f_mem
  obtain ⟨file, file_mem, inside, added, same, -⟩ :=
    mem_overlays stored target ((host.order_perm _).mem_iff.mp path_mem)
  exact ⟨file, file_mem, inside, added, same.trans (entry_eq_some eq).1.symm⟩

theorem patched_path (restorable : z.Restorable host) (stored : z.Stored host store)
    (target : dir ∈ targetDirs) {path : Path}
    (mem : path ∈ ((host.order (patchPaths store [dir])).filterMap z.patched).map Prod.fst) :
    ∃ file ∈ z.staged, [dir] <+: file.1 ∧ (z.head.lookup file.1).isSome ∧ file.1 = path := by
  obtain ⟨f, f_mem, rfl⟩ := List.mem_map.mp mem
  obtain ⟨path, path_mem, eq⟩ := List.mem_filterMap.mp f_mem
  obtain ⟨file, file_mem, inside, modified, rfl, -⟩ :=
    mem_patchPaths restorable stored target ((host.order_perm _).mem_iff.mp path_mem)
  rw [patched_eq file_mem] at eq
  rw [← Option.some.inj eq]
  exact ⟨file, file_mem, inside, modified, rfl⟩

/-- The modified files are not among the copied ones. -/
theorem copied_unpatched (stored : z.Stored host store) (target : dir ∈ targetDirs)
    {copied : Tree Content} (unpatched : z.Unpatched dir work)
    (overlaid : work.Overlaid ((host.order (overlays store [dir])).filterMap (entry store)) copied) :
    z.Unpatched dir copied := by
  intro file mem inside modified
  rw [overlaid.kept]
  · exact unpatched file mem inside modified
  · intro listed
    obtain ⟨other, -, -, added, same⟩ := copied_path stored target listed
    rw [same] at added
    rw [added] at modified
    cases modified

theorem patch_patches (inverse : z.Inverse host) (restorable : z.Restorable host)
    (stored : z.Stored host store) (target : dir ∈ targetDirs) (within : z.Within work)
    (unpatched : z.Unpatched dir work) :
    ∃ after, patch host store work [dir] = some after ∧ z.Patches dir work after := by
  obtain ⟨copied, copies, overlaid⟩ := copies_overlaid restorable stored target within
  obtain ⟨after, applies, patched⟩ := applies_overlaid inverse restorable stored target
    (copied_unpatched stored target unpatched overlaid)
  refine ⟨after, ?_, ?_, ?_, ?_⟩
  · unfold patch
    rw [copies]
    exact applies
  · intro file mem inside shown
    rcases z.status_cases file.1 with ⟨-, modified⟩ | ⟨-, added⟩
    · have listed := patchPaths_mem restorable stored target mem inside modified
      apply patched.placed
      apply List.mem_filterMap.mpr
      exact ⟨_, (host.order_perm _).mem_iff.mpr listed, patched_eq mem⟩
    · obtain ⟨listed, found⟩ := overlays_mem restorable stored target mem inside added (shown added)
      rw [patched.kept]
      · apply overlaid.placed
        apply List.mem_filterMap.mpr
        refine ⟨_, (host.order_perm _).mem_iff.mpr listed, ?_⟩
        unfold entry
        rw [found]
        rfl
      · intro changed
        obtain ⟨other, -, -, modified, same⟩ := patched_path restorable stored target changed
        rw [same, added] at modified
        cases modified
  · intro path outside
    rw [patched.kept, overlaid.kept]
    · intro listed
      obtain ⟨other, -, inside, -, rfl⟩ := copied_path stored target listed
      exact outside inside
    · intro listed
      obtain ⟨other, -, inside, -, rfl⟩ := patched_path restorable stored target listed
      exact outside inside
  · intro path content found
    by_cases changed : path ∈
        ((host.order (patchPaths store [dir])).filterMap z.patched).map Prod.fst
    · obtain ⟨file, mem, -, -, rfl⟩ := patched_path restorable stored target changed
      exact .inl (mem_index mem)
    · rw [patched.kept path changed] at found
      by_cases added : path ∈
          ((host.order (overlays store [dir])).filterMap (entry store)).map Prod.fst
      · obtain ⟨file, mem, -, -, rfl⟩ := copied_path stored target added
        exact .inl (mem_index mem)
      · rw [overlaid.kept path added] at found
        exact within path content found

/-- Each of the two folders is brought back, whatever is in the other one. -/
theorem inst_restores (inverse : z.Inverse host) (restorable : z.Restorable host)
    (stored : z.Stored host store) :
    ∃ after, targetDirs.foldlM (fun work dir => patch host store work [dir])
        (z.remove host).work = some after ∧
      ∀ file ∈ z.staged, isTarget file.1 →
        (z.head.lookup file.1 = none → suffix (fileName file.1) ≠ ".md".toList) →
          after.lookup file.1 = some file.2 := by
  have removed : ∀ dir, z.Unpatched dir (z.remove host).work :=
    fun dir file mem _ _ => remove_head (mem_index mem)
  obtain ⟨first, tests, patches⟩ := patch_patches inverse restorable stored
    (List.mem_cons_self : "tests".toList ∈ targetDirs) z.remove_within (removed _)
  have apart : ∀ path : Path, ["samples".toList] <+: path → ¬["tests".toList] <+: path := by
    rintro path ⟨rest, rfl⟩ below
    exact absurd (List.cons_prefix_cons.mp below).1 (by decide)
  have unpatched : z.Unpatched "samples".toList first := by
    intro file mem inside modified
    rw [patches.keeps file.1 (apart file.1 inside)]
    exact removed _ file mem inside modified
  obtain ⟨after, samples, patches'⟩ := patch_patches inverse restorable stored
    (List.mem_cons_of_mem _ List.mem_cons_self : "samples".toList ∈ targetDirs) patches.within
    unpatched
  refine ⟨after, ?_, ?_⟩
  · unfold targetDirs
    rw [List.foldlM_cons, tests, Option.bind_eq_bind, Option.bind_some, List.foldlM_cons, samples]
    rfl
  · intro file mem target shown
    by_cases inside : ["samples".toList] <+: file.1
    · exact patches'.restores file mem inside shown
    · rw [patches'.keeps file.1 inside]
      apply patches.restores file mem _ shown
      cases path : file.1 with
      | nil => exact absurd path (staged_clean mem).nonempty
      | cons dir rest =>
        rw [path] at target inside
        rcases List.mem_cons.mp (of_decide_eq_true target) with rfl | other
        · exact ⟨rest, rfl⟩
        · rw [List.mem_singleton.mp other] at inside
          exact absurd ⟨rest, rfl⟩ inside

/-- All that is staged in the two folders comes back. -/
def Restores (host : Host Content) (z : Zephyr Content) (repo : Tree Content) : Prop :=
  ∃ after, genRmInst host z repo = some after ∧
    ∀ file ∈ z.staged, isTarget file.1 → after.lookup file.1 = some file.2

/-- What is staged comes back, but for the added files of the suffix that is not copied. -/
theorem genRmInst_restores (host : Host Content) (z : Zephyr Content) (repo : Tree Content)
    (inverse : z.Inverse host) (restorable : z.Restorable host) (fresh : Fresh repo) :
    ∃ after, genRmInst host z repo = some after ∧
      ∀ file ∈ z.staged, isTarget file.1 →
        (z.head.lookup file.1 = none → suffix (fileName file.1) ≠ ".md".toList) →
          after.lookup file.1 = some file.2 := by
  obtain ⟨store, gen, stored⟩ := generatePatches_stores inverse restorable fresh
  obtain ⟨after, inst, restores⟩ := inst_restores inverse restorable stored
  refine ⟨after, ?_, restores⟩
  unfold genRmInst
  rw [gen]
  exact inst

end Zephyr

/-! ## Files of one line -/

/-- Unified diffs of files that have one line. -/
def lineHost : Host (List Char) where
  diff changes := changes.flatMap fun change =>
    "--- a/".toList ++ str change.1 ++ "\n+++ b/".toList ++ str change.1 ++
      "\n@@ -1 +1 @@\n-".toList ++ change.2.1.getD [] ++ '+' :: change.2.2
  gitApply content tree :=
    match Patch.splitLines content with
    | [name, _, _, old, new] =>
      let path := parts (name.drop 6)
      if tree.lookup path = some (old.tail ++ ['\n']) then tree.put path (new.tail ++ ['\n'])
      else none
    | _ => none
  pathspec name path := decide (name = str path)
  ignored _ := false
  decode := some
  encode := id
  order := id
  encode_decode := fun _ _ decoded => (Option.some.inj decoded).symm
  apply_empty := fun _ => rfl
  pathspec_self := fun _ => decide_eq_true rfl
  order_perm := fun _ => .refl _

def treeOf (files : List (Path × List Char)) : Tree (List Char) :=
  files.foldl (fun tree file => (tree.put file.1 file.2).getD tree) .empty

def mainPath : Path := ["tests".toList, "main.c".toList]

def confPath : Path := ["samples".toList, "prj.conf".toList]

def readmePath : Path := ["tests".toList, "README.md".toList]

/-- A file is modified and another one is added. -/
def twoStaged : Zephyr (List Char) where
  head := treeOf [(mainPath, "x\n".toList)]
  index := treeOf [(mainPath, "y\n".toList), (confPath, "z\n".toList)]
  work := treeOf [(mainPath, "y\n".toList), (confPath, "z\n".toList)]
  kept := by
    have keys : ∀ path ∈ (treeOf [(mainPath, "x\n".toList)]).files.keys,
        path ∈ (treeOf [(mainPath, "y\n".toList), (confPath, "z\n".toList)]).files := by
      decide
    exact fun path mem => keys path (AList.mem_keys.mp mem)
  clean := by
    have keys : ∀ path ∈ (treeOf [(mainPath, "y\n".toList), (confPath, "z\n".toList)]).files.keys,
        Clean path := by
      decide
    exact fun path mem => keys path (AList.mem_keys.mp mem)

theorem twoStaged_staged :
    twoStaged.staged = [(confPath, "z\n".toList), (mainPath, "y\n".toList)] := by
  decide

theorem twoStaged_inverse : twoStaged.Inverse lineHost := by
  intro file mem old found tree current
  rw [twoStaged_staged] at mem
  rcases List.mem_cons.mp mem with rfl | mem
  · have unknown : twoStaged.head.lookup confPath = none := by decide
    rw [unknown] at found
    cases found
  · obtain rfl := List.mem_singleton.mp mem
    have known : twoStaged.head.lookup mainPath = some "x\n".toList := by decide
    rw [known] at found
    obtain rfl := Option.some.inj found
    have lines : Patch.splitLines (lineHost.diff [(mainPath, some "x\n".toList, "y\n".toList)]) =
        ["--- a/tests/main.c".toList, "+++ b/tests/main.c".toList, "@@ -1 +1 @@".toList,
          "-x".toList, "+y".toList] := by decide
    have path : parts ("--- a/tests/main.c".toList.drop 6) = mainPath := by decide
    change (match Patch.splitLines (lineHost.diff [(mainPath, some "x\n".toList, "y\n".toList)])
      with
      | [name, _, _, old, new] =>
        let path := parts (name.drop 6)
        if tree.lookup path = some (old.tail ++ ['\n']) then tree.put path (new.tail ++ ['\n'])
        else none
      | _ => none) = _
    rw [lines]
    dsimp only
    rw [path, if_pos]
    · rfl
    · rw [current]
      decide

theorem twoStaged_restorable : twoStaged.Restorable lineHost where
  printed := by decide
  below := by decide
  unstripped := by decide
  noPatchDir := by decide
  current := by decide
  noPatch := by decide
  alone := by decide
  text := by
    have plain : ∀ file ∈ twoStaged.staged, '\r' ∉ lineHost.diff [twoStaged.change file] := by
      decide
    exact fun file mem _ _ => ⟨_, rfl, plain file mem⟩

theorem fresh_empty : Fresh (.empty : Tree (List Char)) :=
  fun path mem => absurd mem (AList.notMem_empty path)

theorem genRmInst_restores_two : ∃ after, genRmInst lineHost twoStaged .empty = some after ∧
    ∀ file ∈ twoStaged.staged, isTarget file.1 →
      (twoStaged.head.lookup file.1 = none → suffix (fileName file.1) ≠ ".md".toList) →
        after.lookup file.1 = some file.2 :=
  Zephyr.genRmInst_restores lineHost twoStaged .empty twoStaged_inverse twoStaged_restorable
    fresh_empty

/-- A file of documentation is added. -/
def readmeStaged : Zephyr (List Char) where
  head := .empty
  index := treeOf [(readmePath, "r\n".toList)]
  work := treeOf [(readmePath, "r\n".toList)]
  kept := fun path mem => absurd mem (AList.notMem_empty path)
  clean := by
    have keys : ∀ path ∈ (treeOf [(readmePath, "r\n".toList)]).files.keys, Clean path := by
      decide
    exact fun path mem => keys path (AList.mem_keys.mp mem)

/-- `gen` stores it and `inst` leaves it where it is stored. -/
theorem readme_not_restored :
    readmeStaged.Inverse lineHost ∧ Fresh (.empty : Tree (List Char)) ∧
      (generatePatches lineHost readmeStaged .empty).bind (fun store => store.lookup readmePath) =
        some "r\n".toList ∧
      ¬readmeStaged.Restores lineHost .empty := by
  have staged : readmeStaged.staged = [(readmePath, "r\n".toList)] := by decide
  have inverse : readmeStaged.Inverse lineHost := by
    intro file _ old found
    cases found
  refine ⟨inverse, fresh_empty, by decide, ?_⟩
  rintro ⟨after, run, restores⟩
  have missing : (genRmInst lineHost readmeStaged .empty).bind
      (fun after => after.lookup readmePath) = none := by
    decide
  rw [run, Option.bind_some, restores (readmePath, "r\n".toList) (by rw [staged]; simp)
    (by decide)] at missing
  cases missing

end Qapp.Overlay
