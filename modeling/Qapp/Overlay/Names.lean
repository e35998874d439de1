import Qapp.Patch.Marker

namespace Qapp.Overlay

open Patch (lineBreak splitLines strip)

abbrev Name := List Char

/-- A path by its components. -/
abbrev Path := List Name

def str (path : Path) : List Char := ['/'].intercalate path

/-- `Path(..).parts` of a relative path. -/
def parts (text : List Char) : Path :=
  (text.splitOn '/').filter fun part => part ≠ [] ∧ part ≠ ['.']

/-- The paths that git tracks. -/
structure Clean (path : Path) : Prop where
  nonempty : path ≠ []
  named : ∀ part ∈ path, part ≠ [] ∧ part ≠ ['.']
  unsplit : ∀ part ∈ path, '/' ∉ part

instance (path : Path) : Decidable (Clean path) :=
  decidable_of_iff (path ≠ [] ∧ (∀ part ∈ path, part ≠ [] ∧ part ≠ ['.']) ∧
      ∀ part ∈ path, '/' ∉ part)
    ⟨fun ⟨nonempty, named, unsplit⟩ => ⟨nonempty, named, unsplit⟩,
      fun clean => ⟨clean.nonempty, clean.named, clean.unsplit⟩⟩

def patchExt : Name := ".patch".toList

theorem patchExt_eq : patchExt = ['.', 'p', 'a', 't', 'c', 'h'] := by decide

/-- `Path(..).suffix` of a file name: a dot at either end starts none. -/
def suffix (name : Name) : Name :=
  let ext := name.rtakeWhile (· ≠ '.')
  if '.' ∈ name ∧ ext ≠ [] ∧ ext.length + 1 < name.length then '.' :: ext else []

def fileName (path : Path) : Name := path.getLastD []

/-- `Path(file_rel_path_str + '.patch')` -/
def addPatch : Path → Path
  | [] => [patchExt]
  | [name] => [name ++ patchExt]
  | dir :: path => dir :: addPatch path

/-! ## How git prints a path -/

def special (c : Char) : Bool := c.toNat < 32 || c == '"' || c == '\\' || c.toNat ≥ 127

def octal (b : UInt8) : List Char :=
  ['\\', Nat.digitChar (b.toNat / 64), Nat.digitChar (b.toNat / 8 % 8),
    Nat.digitChar (b.toNat % 8)]

def escape (c : Char) : List Char :=
  if !special c then [c]
  else if c.toNat = 7 then ['\\', 'a']
  else if c.toNat = 8 then ['\\', 'b']
  else if c = '\t' then ['\\', 't']
  else if c = '\n' then ['\\', 'n']
  else if c.toNat = 11 then ['\\', 'v']
  else if c.toNat = 12 then ['\\', 'f']
  else if c = '\r' then ['\\', 'r']
  else if c = '"' ∨ c = '\\' then ['\\', c]
  else (String.utf8EncodeChar c).flatMap octal

/-- Names with special characters are quoted. -/
def cQuote (name : List Char) : List Char :=
  if name.any special then '"' :: name.flatMap escape ++ ['"'] else name

theorem lineBreak_special {c : Char} (breaks : lineBreak c = true) : special c = true := by
  unfold lineBreak at breaks
  rcases Bool.or_eq_true_iff.mp breaks with newline | carriage
  · rw [beq_iff_eq.mp newline]
    decide
  · rw [beq_iff_eq.mp carriage]
    decide

theorem digitChar_unbroken (n : Nat) (small : n < 16) : lineBreak (Nat.digitChar n) = false := by
  obtain ⟨newline, carriage, -⟩ := Patch.digitChar_plain n small
  simp [lineBreak, newline, carriage]

theorem octal_unbroken (b : UInt8) : (octal b).any lineBreak = false := by
  have bound : b.toNat < 256 := b.toNat_lt
  have backslash : lineBreak '\\' = false := rfl
  unfold octal
  simp only [List.any_cons, List.any_nil, backslash,
    digitChar_unbroken (b.toNat / 64) (by omega), digitChar_unbroken (b.toNat / 8 % 8) (by omega),
    digitChar_unbroken (b.toNat % 8) (by omega), Bool.or_false]

theorem escape_unbroken (c : Char) : (escape c).any lineBreak = false := by
  unfold escape
  split
  · rename_i plain
    rw [List.any_cons, List.any_nil, Bool.or_false]
    cases breaks : lineBreak c with
    | false => rfl
    | true =>
      rw [lineBreak_special breaks] at plain
      cases plain
  · repeat' split
    all_goals first | rfl | skip
    · rename_i either
      rcases either with rfl | rfl <;> rfl
    · apply List.any_eq_false.mpr
      intro d mem
      obtain ⟨b, _, d_mem⟩ := List.mem_flatMap.mp mem
      exact List.any_eq_false.mp (octal_unbroken b) d d_mem

theorem cQuote_unbroken (name : List Char) : (cQuote name).any lineBreak = false := by
  have quote : lineBreak '"' = false := rfl
  unfold cQuote
  split
  · have escaped : (name.flatMap escape).any lineBreak = false := by
      apply List.any_eq_false.mpr
      intro d mem
      obtain ⟨c, _, d_mem⟩ := List.mem_flatMap.mp mem
      exact List.any_eq_false.mp (escape_unbroken c) d d_mem
    rw [List.any_append, List.any_cons, escaped, List.any_cons, List.any_nil, quote]
    rfl
  · rename_i plain
    apply List.any_eq_false.mpr
    intro c mem breaks
    exact plain (List.any_eq_true.mpr ⟨c, mem, lineBreak_special breaks⟩)

/-! ## Paths as text -/

theorem parts_str {path : Path} (clean : Clean path) : parts (str path) = path := by
  unfold parts str
  rw [List.splitOn_intercalate '/' clean.unsplit clean.nonempty]
  apply List.filter_eq_self.mpr
  intro part mem
  exact decide_eq_true (clean.named part mem)

theorem addPatch_eq {path : Path} (nonempty : path ≠ []) :
    addPatch path = path.dropLast ++ [fileName path ++ patchExt] := by
  induction path with
  | nil => exact absurd rfl nonempty
  | cons dir path ih =>
    cases path with
    | nil => rfl
    | cons name rest =>
      have last : fileName (dir :: name :: rest) = fileName (name :: rest) := rfl
      rw [addPatch, ih (List.cons_ne_nil _ _), last]
      · rfl
      · exact List.cons_ne_nil _ _

theorem str_cons (dir : Name) {path : Path} (nonempty : path ≠ []) :
    str (dir :: path) = dir ++ '/' :: str path := by
  cases path with
  | nil => exact absurd rfl nonempty
  | cons name rest => rfl

theorem addPatch_ne_nil (path : Path) : addPatch path ≠ [] := by
  cases path with
  | nil => exact List.cons_ne_nil _ _
  | cons dir path => cases path <;> exact List.cons_ne_nil _ _

theorem str_addPatch {path : Path} (nonempty : path ≠ []) :
    str (addPatch path) = str path ++ patchExt := by
  induction path with
  | nil => exact absurd rfl nonempty
  | cons dir path ih =>
    cases path with
    | nil => simp [str, addPatch, List.intercalate]
    | cons name rest =>
      have more : name :: rest ≠ [] := List.cons_ne_nil _ _
      rw [addPatch, str_cons dir (addPatch_ne_nil _), ih more, str_cons dir more]
      · simp only [List.append_assoc, List.cons_append]
      · exact more

theorem fileName_mem {path : Path} (nonempty : path ≠ []) : fileName path ∈ path := by
  unfold fileName
  rw [List.getLastD_eq_getLast?, List.getLast?_eq_some_getLast nonempty]
  exact List.getLast_mem nonempty

theorem dropLast_fileName {path : Path} (nonempty : path ≠ []) :
    path.dropLast ++ [fileName path] = path := by
  unfold fileName
  rw [List.getLastD_eq_getLast?, List.getLast?_eq_some_getLast nonempty]
  exact List.dropLast_append_getLast nonempty

theorem Clean.addPatch {path : Path} (clean : Clean path) : Clean (addPatch path) := by
  have last := fileName_mem clean.nonempty
  constructor
  · exact addPatch_ne_nil path
  · intro part mem
    rw [addPatch_eq clean.nonempty] at mem
    rcases List.mem_append.mp mem with mem | mem
    · exact clean.named part (List.dropLast_subset _ mem)
    · rw [List.mem_singleton.mp mem]
      constructor
      · simp [patchExt_eq]
      · intro eq
        have length := congrArg List.length eq
        simp [patchExt_eq] at length
  · intro part mem
    rw [addPatch_eq clean.nonempty] at mem
    rcases List.mem_append.mp mem with mem | mem
    · exact clean.unsplit part (List.dropLast_subset _ mem)
    · rw [List.mem_singleton.mp mem, List.mem_append, not_or]
      exact ⟨clean.unsplit _ last, by decide⟩

theorem fileName_addPatch {path : Path} (nonempty : path ≠ []) :
    fileName (addPatch path) = fileName path ++ patchExt := by
  rw [addPatch_eq nonempty]
  simp [fileName]

theorem addPatch_injective {p q : Path} (p_nonempty : p ≠ []) (q_nonempty : q ≠ [])
    (eq : addPatch p = addPatch q) : p = q := by
  rw [addPatch_eq p_nonempty, addPatch_eq q_nonempty] at eq
  obtain ⟨dirs, name⟩ := List.append_inj' eq rfl
  have name := List.append_cancel_right (List.cons.inj name).1
  rw [← dropLast_fileName p_nonempty, ← dropLast_fileName q_nonempty, dirs, name]

/-- What lies above a patch lies above the file it is for. -/
theorem prefix_addPatch {p q : Path} (nonempty : q ≠ []) (below : p <+: addPatch q)
    (ne : p ≠ addPatch q) : p <+: q.dropLast := by
  rw [addPatch_eq nonempty] at below ne
  rcases List.prefix_concat_iff.mp below with eq | above
  · exact absurd eq ne
  · exact above

theorem part_cases {path : Path} {part : Name} (mem : part ∈ path) :
    part ∈ path.dropLast ∨ part = fileName path := by
  have nonempty := List.ne_nil_of_mem mem
  rw [← dropLast_fileName nonempty] at mem
  rcases List.mem_append.mp mem with dir | last
  · exact .inl dir
  · exact .inr (List.mem_singleton.mp last)

/-- What lies below a patch has a directory of its name. -/
theorem addPatch_prefix {p q : Path} (nonempty : q ≠ []) (below : addPatch q <+: p) :
    ∃ part ∈ p, patchExt <:+ part := by
  rw [addPatch_eq nonempty] at below
  exact ⟨fileName q ++ patchExt, below.subset (by simp), List.suffix_append _ _⟩

/-! ## Suffixes -/

theorem rtakeWhile_patch (name : Name) :
    (name ++ patchExt).rtakeWhile (· ≠ '.') = "patch".toList := by
  have split : name ++ patchExt =
      name ++ ['.'] ++ ['p'] ++ ['a'] ++ ['t'] ++ ['c'] ++ ['h'] := by
    simp [patchExt_eq]
  rw [split, List.rtakeWhile_concat_pos _ _ _ (by decide),
    List.rtakeWhile_concat_pos _ _ _ (by decide), List.rtakeWhile_concat_pos _ _ _ (by decide),
    List.rtakeWhile_concat_pos _ _ _ (by decide), List.rtakeWhile_concat_pos _ _ _ (by decide),
    List.rtakeWhile_concat_neg _ _ _ (by decide)]
  rfl

theorem suffix_patch {name : Name} (nonempty : name ≠ []) :
    suffix (name ++ patchExt) = patchExt := by
  have long := List.length_pos_of_ne_nil nonempty
  unfold suffix
  rw [rtakeWhile_patch]
  dsimp only
  rw [if_pos]
  · rfl
  · refine ⟨by simp [patchExt_eq], by decide, ?_⟩
    have ext : patchExt.length = 6 := by decide
    have stem : "patch".toList.length = 5 := by decide
    rw [List.length_append, ext, stem]
    omega

/-- The text from the last dot on is the end of the name. -/
theorem dot_suffix {name : Name} (dot : '.' ∈ name) :
    '.' :: name.rtakeWhile (· ≠ '.') <:+ name := by
  have whole := List.rdropWhile_append_rtakeWhile (p := (· ≠ '.')) (l := name)
  have stem : name.rdropWhile (· ≠ '.') ≠ [] := by
    intro none_left
    exact of_decide_eq_true (List.rdropWhile_eq_nil_iff.mp none_left '.' dot) rfl
  have last := List.rdropWhile_last_not _ _ stem
  rw [decide_eq_true_eq, not_not] at last
  rw [← List.dropLast_append_getLast stem, last, List.append_assoc] at whole
  exact ⟨_, whole⟩

theorem patch_of_suffix {name : Name} (eq : suffix name = patchExt) : patchExt <:+ name := by
  unfold suffix at eq
  dsimp only at eq
  split at eq
  · rename_i dot
    rw [← eq]
    exact dot_suffix dot.1
  · have other : ([] : Name) ≠ patchExt := by decide
    exact absurd eq other

end Qapp.Overlay
