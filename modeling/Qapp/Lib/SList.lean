import Mathlib.Data.List.Basic
import Mathlib.Data.List.Induction
import Mathlib.Logic.Function.Basic

/-!
# Singly linked lists

A list of nodes that hold the link to the next one themselves, with pointers to both ends.
Nothing in the operations keeps a node from being linked twice.
-/

/-- The two ends, and the link of every node, whether it is in the list or not. -/
structure SList (N : Type) where
  head : Option N
  tail : Option N
  next : N → Option N

namespace SList
variable {N : Type}

def empty : SList N := ⟨none, none, fun _ => none⟩

/-- Links from `h` lead through the nodes to `t`. -/
inductive Seg (next : N → Option N) : Option N → List N → Option N → Prop
  | nil (t : Option N) : Seg next t [] t
  | cons {n : N} {ns : List N} {t : Option N} (rest : Seg next (next n) ns t) :
      Seg next (some n) (n :: ns) t

/-- The list is the nodes `ns`, each of them once. -/
structure Represents (l : SList N) (ns : List N) : Prop where
  seg : Seg l.next l.head ns none
  nodup : ns.Nodup
  tail : l.tail = ns.getLast?

/-- The walk from `cur` to the first node that meets `stop`, with the one before it. It needs
fuel, since links may form a cycle. -/
def find (next : N → Option N) (stop : N → Bool) :
    Nat → Option N → Option N → Option (Option N × Option N)
  | 0, _, _ => none
  | _ + 1, prev, none => some (prev, none)
  | fuel + 1, prev, some n =>
    if stop n then some (prev, some n) else find next stop fuel (some n) (next n)

variable [DecidableEq N]

/-- The node becomes the last one. -/
def append (l : SList N) (n : N) : SList N :=
  let next := Function.update l.next n none
  match l.tail with
  | none => ⟨some n, some n, next⟩
  | some t => ⟨l.head, some n, Function.update next t (some n)⟩

/-- The node behind `prev` is unlinked. -/
def remove (l : SList N) (prev : Option N) (n : N) : SList N :=
  match prev with
  | none =>
    ⟨l.next n, if l.tail = some n then l.next n else l.tail, Function.update l.next n none⟩
  | some p =>
    ⟨l.head, if l.tail = some n then some p else l.tail,
      Function.update (Function.update l.next p (l.next n)) n none⟩

/-- The first place of the node is looked for, and the node unlinked there. -/
def findAndRemove (fuel : Nat) (l : SList N) (n : N) : Option (SList N) :=
  match find l.next (· = n) fuel none l.head with
  | none => none
  | some (_, none) => some l
  | some (prev, some n) => some (l.remove prev n)

/-! ## Links -/

variable {next : N → Option N} {h m t : Option N} {ns as bs : List N} {n : N} {l : SList N}

omit [DecidableEq N] in
theorem Seg.append (first : Seg next h as m) (last : Seg next m bs t) : Seg next h (as ++ bs) t := by
  induction first with
  | nil => exact last
  | cons _ ih => exact .cons (ih last)

omit [DecidableEq N] in
theorem Seg.split (seg : Seg next h (as ++ bs) t) : ∃ m, Seg next h as m ∧ Seg next m bs t := by
  induction as generalizing h with
  | nil => exact ⟨h, .nil h, seg⟩
  | cons a as ih =>
    cases seg with
    | cons rest =>
      obtain ⟨m, first, last⟩ := ih rest
      exact ⟨m, .cons first, last⟩

omit [DecidableEq N] in
/-- Links lead one way only. -/
theorem Seg.unique (seg : Seg next h as none) (seg' : Seg next h bs none) : as = bs := by
  induction as generalizing h bs with
  | nil =>
    cases seg
    cases seg'
    rfl
  | cons a as ih =>
    cases seg with
    | cons rest =>
      cases seg' with
      | cons rest' => rw [ih rest rest']

omit [DecidableEq N] in
/-- What is passed first, and the rest. -/
theorem Seg.rest (first : Seg next h as m) (seg : Seg next h bs none) :
    ∃ cs, bs = as ++ cs ∧ Seg next m cs none := by
  induction first generalizing bs with
  | nil => exact ⟨bs, rfl, seg⟩
  | cons _ ih =>
    cases seg with
    | cons seg =>
      obtain ⟨cs, rfl, rest⟩ := ih seg
      exact ⟨cs, rfl, rest⟩

omit [DecidableEq N] in
theorem not_seg_loop (loop : next n = some n) (ns : List N) : ¬Seg next (some n) ns none := by
  induction ns with
  | nil => rintro ⟨⟩
  | cons a ns ih =>
    intro seg
    cases seg with
    | cons seg =>
      rw [loop] at seg
      exact ih seg

theorem Seg.update (seg : Seg next h ns t) {x : N} (out : x ∉ ns) (v : Option N) :
    Seg (Function.update next x v) h ns t := by
  induction seg with
  | nil => exact .nil _
  | @cons n ns t rest ih =>
    rw [List.mem_cons, not_or] at out
    apply Seg.cons
    rw [Function.update_of_ne (Ne.symm out.1)]
    exact ih out.2

omit [DecidableEq N] in
theorem Seg.last {n : N} (seg : Seg next h (as ++ [n]) none) :
    Seg next h as (some n) ∧ next n = none := by
  obtain ⟨m, first, last⟩ := seg.split
  cases last with
  | cons rest =>
    refine ⟨first, ?_⟩
    generalize next n = m at rest
    cases rest
    rfl

omit [DecidableEq N] in
theorem Represents.unique (rep : Represents l as) (rep' : Represents l bs) : as = bs :=
  rep.seg.unique rep'.seg

omit [DecidableEq N] in
theorem represents_empty : Represents (empty : SList N) [] := ⟨.nil _, .nil, rfl⟩

/-! ## Append -/

theorem append_none (ends : l.tail = none) (n : N) :
    l.append n = ⟨some n, some n, Function.update l.next n none⟩ := by
  rw [append, ends]

theorem append_some {t : N} (ends : l.tail = some t) (n : N) : l.append n =
    ⟨l.head, some n, Function.update (Function.update l.next n none) t (some n)⟩ := by
  rw [append, ends]

omit [DecidableEq N] in
theorem not_mem_init {init : List N} {t : N} (nodup : (init ++ [t]).Nodup) : t ∉ init := fun mem =>
  (List.nodup_append.mp nodup).2.2 t mem t (List.mem_singleton_self t) rfl

theorem append_fresh (rep : Represents l ns) (fresh : n ∉ ns) :
    Represents (l.append n) (ns ++ [n]) := by
  obtain ⟨seg, nodup, tail⟩ := rep
  have nodup' : (ns ++ [n]).Nodup := by
    rw [List.nodup_append]
    refine ⟨nodup, by simp, ?_⟩
    rintro a mem b single rfl
    exact fresh (List.mem_singleton.mp single ▸ mem)
  rcases List.eq_nil_or_concat ns with rfl | ⟨init, t, rfl⟩
  · rw [append_none tail]
    constructor
    · apply Seg.cons
      dsimp only
      rw [Function.update_self]
      exact .nil none
    · exact nodup'
    · rfl
  · rw [List.concat_eq_append] at *
    have ends : l.tail = some t := by simpa using tail
    obtain ⟨front, last⟩ := seg.last
    rw [List.mem_append, List.mem_singleton, not_or] at fresh
    rw [append_some ends]
    constructor
    · apply Seg.append (m := some n)
      · apply Seg.append ((front.update fresh.1 none).update (not_mem_init nodup) (some n))
        apply Seg.cons
        rw [Function.update_self]
        exact .nil _
      · apply Seg.cons
        dsimp only
        rw [Function.update_of_ne fresh.2, Function.update_self]
        exact .nil none
    · exact nodup'
    · simp

/-- A node that is appended once more makes a cycle, or cuts off what was behind it. -/
theorem append_linked (rep : Represents l ns) (linked : n ∈ ns) :
    ¬∃ ms, Represents (l.append n) ms ∧ ∀ m ∈ ns, m ∈ ms := by
  rintro ⟨ms, ⟨seg', -, -⟩, all⟩
  obtain ⟨seg, nodup, tail⟩ := rep
  obtain ⟨init, t, rfl⟩ := (List.eq_nil_or_concat ns).resolve_left (List.ne_nil_of_mem linked)
  rw [List.concat_eq_append] at *
  have ends : l.tail = some t := by simpa using tail
  rw [append_some ends] at seg'
  dsimp only at seg'
  obtain ⟨front, last⟩ := seg.last
  have out := not_mem_init nodup
  by_cases same : n = t
  · subst same
    obtain ⟨cs, -, loop⟩ := ((front.update out none).update out (some n)).rest seg'
    exact not_seg_loop (Function.update_self ..) cs loop
  · have inner : n ∈ init := by simpa [same] using linked
    obtain ⟨pre, post, rfl⟩ := List.append_of_mem inner
    obtain ⟨m, first, later⟩ := front.split
    cases later
    have nodup' := (List.nodup_append.mp nodup).1
    have before : n ∉ pre := fun mem =>
      (List.nodup_append.mp nodup').2.2 n mem n (List.mem_cons_self ..) rfl
    have outside : t ∉ pre := fun mem => out (List.mem_append_left _ mem)
    have cut : Seg (Function.update (Function.update l.next n none) t (some n)) l.head
        (pre ++ [n]) none := by
      apply Seg.append ((first.update before none).update outside (some n))
      apply Seg.cons
      rw [Function.update_of_ne same, Function.update_self]
      exact .nil none
    have short := cut.unique seg'
    have lost := all t (List.mem_append_right _ (List.mem_singleton_self t))
    rw [← short, List.mem_append, List.mem_singleton] at lost
    exact lost.elim outside (Ne.symm same)

/-! ## Removal -/

omit [DecidableEq N] in
/-- The walk ends at the first node that stops it, or behind the last one. -/
theorem find_first {stop : N → Bool} {fuel : Nat} {prev : Option N} {r : Option N × Option N}
    (seg : Seg next h ns none) (found : find next stop fuel prev h = some r) :
    (r.2 = none ∧ ∀ n ∈ ns, stop n = false) ∨
      ∃ pre n post, ns = pre ++ n :: post ∧ (∀ n ∈ pre, stop n = false) ∧ stop n = true ∧
        r = (pre.getLast?.or prev, some n) := by
  induction ns generalizing h fuel prev with
  | nil =>
    cases seg
    cases fuel with
    | zero => cases found
    | succ fuel =>
      cases found
      exact .inl ⟨rfl, nofun⟩
  | cons a ns ih =>
    cases seg with
    | cons seg =>
      cases fuel with
      | zero => cases found
      | succ fuel =>
        rw [find] at found
        split at found
        next here =>
          cases found
          exact .inr ⟨[], a, ns, rfl, nofun, here, rfl⟩
        next more =>
          obtain ⟨ends, none⟩ | ⟨pre, n, post, rfl, passed, here, rfl⟩ := ih seg found
          · exact .inl ⟨ends, List.forall_mem_cons.mpr ⟨by simpa using more, none⟩⟩
          · refine .inr ⟨a :: pre, n, post, rfl, ?_, here, ?_⟩
            · exact List.forall_mem_cons.mpr ⟨by simpa using more, passed⟩
            · cases pre <;> simp [List.getLast?_cons]

omit [DecidableEq N] in
theorem getLast?_middle {pre post : List N} (last : N) :
    (pre ++ n :: (post ++ [last])).getLast? = some last := by
  rw [← List.cons_append, ← List.append_assoc, List.getLast?_concat]

omit [DecidableEq N] in
theorem not_mem_around {pre post : List N} (nodup : (pre ++ n :: post).Nodup) :
    n ∉ pre ∧ n ∉ post := by
  obtain ⟨-, nodupPost, apart⟩ := List.nodup_append.mp nodup
  exact ⟨fun mem => apart n mem n (List.mem_cons_self ..) rfl, (List.nodup_cons.mp nodupPost).1⟩

/-- The pointer to the last node, if it is not the removed one. -/
theorem tail_removed {pre post : List N} (behind : n ∉ post) (tail : t = (pre ++ n :: post).getLast?)
    (single : post = [] → m = pre.getLast?) :
    (if t = some n then m else t) = (pre ++ post).getLast? := by
  rcases List.eq_nil_or_concat post with rfl | ⟨post, last, rfl⟩
  · rw [List.getLast?_concat] at tail
    rw [if_pos tail, List.append_nil, single rfl]
  · rw [List.concat_eq_append] at *
    rw [getLast?_middle] at tail
    have other : last ≠ n := by
      rintro rfl
      exact behind (List.mem_append_right _ (List.mem_singleton_self _))
    rw [tail, if_neg (by simpa using other), ← List.append_assoc, List.getLast?_concat]

theorem remove_represents {pre post : List N} (rep : Represents l (pre ++ n :: post)) :
    Represents (l.remove pre.getLast? n) (pre ++ post) := by
  obtain ⟨seg, nodup, tail⟩ := rep
  obtain ⟨m, first, later⟩ := seg.split
  cases later with
  | cons rest =>
    have nodup' : (pre ++ post).Nodup :=
      nodup.sublist (.append (.refl pre) (List.sublist_cons_self n post))
    obtain ⟨nodupPre, -, apart⟩ := List.nodup_append.mp nodup
    obtain ⟨before, behind⟩ := not_mem_around nodup
    rcases List.eq_nil_or_concat pre with rfl | ⟨init, p, rfl⟩
    · constructor
      · exact rest.update behind none
      · exact nodup'
      · apply tail_removed behind tail
        rintro rfl
        generalize l.next n = m at rest
        cases rest
        rfl
    · rw [List.concat_eq_append] at *
      have outside : p ∉ post := fun mem =>
        apart p (List.mem_append_right _ (List.mem_singleton_self p)) p (.tail _ mem) rfl
      have fresh : n ∉ init := fun mem => before (List.mem_append_left _ mem)
      have other : p ≠ n := by
        rintro rfl
        exact before (List.mem_append_right _ (List.mem_singleton_self _))
      obtain ⟨q, front, last⟩ := first.split
      cases last with
      | cons back =>
        rw [List.getLast?_concat]
        constructor
        · apply Seg.append (m := l.next n)
          · apply Seg.append ((front.update (not_mem_init nodupPre) _).update fresh none)
            apply Seg.cons
            rw [Function.update_of_ne other, Function.update_self]
            exact .nil _
          · exact (rest.update outside _).update behind none
        · exact nodup'
        · exact tail_removed behind tail fun _ => List.getLast?_concat.symm

theorem findAndRemove_represents {pre post : List N} {fuel : Nat} {l' : SList N}
    (rep : Represents l (pre ++ n :: post)) (returns : findAndRemove fuel l n = some l') :
    Represents l' (pre ++ post) := by
  rw [findAndRemove] at returns
  split at returns
  next => cases returns
  next found =>
    obtain ⟨-, none⟩ | ⟨_, _, _, _, _, _, impossible⟩ := find_first rep.seg found
    · have := none n (List.mem_append_right _ (List.mem_cons_self ..))
      simp at this
    · cases impossible
  next prev x found =>
    obtain ⟨impossible, -⟩ | ⟨pre', y, post', same, -, here, eq⟩ := find_first rep.seg found
    · cases impossible
    · cases eq
      cases of_decide_eq_true here
      obtain ⟨before, behind⟩ := not_mem_around rep.nodup
      rw [same] at rep
      obtain ⟨before', behind'⟩ := not_mem_around rep.nodup
      obtain ⟨rfl, -, rfl⟩ := (List.append_cons_inj_of_notMem before' behind').mp same.symm
      cases returns
      rw [Option.or_none]
      exact remove_represents rep

end SList
