import Qapp.Fw.Choice

/-!
# Losing power during an upload

After any number of its operations, up to those that make the trial FWD valid, a session leaves
the tables so that the same firmware is found in them.
-/

namespace Qapp.Fw
open ByteMem Traced
open Relation (ReflTransGen)

variable {e : Env} {s t s₀ : St} {h h' l k : List Event} {f num : Nat}

/-! ## A scan without one of the tables -/

/-- The scan that visits table `f` and the one that finds it not bootable: either they
agree, or `f` is the current one of the first. -/
def Drops (f : Nat) (a b : Scan) : Prop :=
  a.current = b.current ∧ a.rank = b.rank ∨ a.current = f ∧ b.rank ≤ a.rank

section Drops
variable {m m' : Mem} {a b : Scan} {i : Nat} {is : List Nat}

/-- A visit, as far as the current firmware is concerned. -/
theorem Scan.at_current (m : Mem) (a : Scan) (i : Nat) :
    (RankedAt m i ∧ a.rank < fwdField m i .rank ∧ (Scan.at m a i).current = i ∧
      (Scan.at m a i).rank = fwdField m i .rank) ∨
    ((RankedAt m i → fwdField m i .rank ≤ a.rank) ∧ (Scan.at m a i).current = a.current ∧
      (Scan.at m a i).rank = a.rank) := by
  rcases table_cases m i with trial | ranked | other
  · right
    rw [Scan.at_trial trial]
    exact ⟨fun ranked => absurd ranked trial.not_ranked, rfl, rfl⟩
  · rw [Scan.at_ranked ranked]
    by_cases higher : a.rank < fwdField m i .rank
    · left
      rw [if_pos higher]
      exact ⟨ranked, higher, rfl, rfl⟩
    · right
      rw [if_neg higher]
      exact ⟨fun _ => Nat.not_lt.mp higher, rfl, rfl⟩
  · right
    rw [Scan.at_other other]
    refine ⟨fun ranked => ?_, rfl, rfl⟩
    rw [ranked.1] at other
    cases other

/-- Tables with the same fields rank alike. -/
theorem RankedAt.congr (same : ∀ info, fwdField m' i info = fwdField m i info) :
    RankedAt m' i ↔ RankedAt m i := by
  unfold RankedAt bootableAt
  simp only [same]

theorem Drops.visit (drops : Drops f a b) (gone : bootableAt m' f = false)
    (same : i ≠ f → ∀ info, fwdField m' i info = fwdField m i info) :
    Drops f (Scan.at m a i) (Scan.at m' b i) := by
  by_cases eq : i = f
  · subst eq
    rw [Scan.at_other gone]
    rcases Scan.at_current m a i with ⟨-, higher, current, rank⟩ | ⟨-, current, rank⟩
    · right
      rcases drops with ⟨-, same⟩ | ⟨-, le⟩ <;> omega
    · unfold Drops
      rw [current, rank]
      exact drops
  · have rank' := same eq .rank
    have alike := RankedAt.congr (same eq)
    rcases Scan.at_current m a i with ⟨ranked, higher, current, rank⟩ | ⟨low, current, rank⟩
    · -- a table above the first scan is above the second one, too
      left
      rcases Scan.at_current m' b i with ⟨-, -, here, here'⟩ | ⟨low, -, -⟩
      · omega
      · have := low (alike.mpr ranked)
        rcases drops with ⟨-, same⟩ | ⟨-, le⟩ <;> omega
    · rcases Scan.at_current m' b i with ⟨ranked, higher, here, here'⟩ | ⟨-, here, here'⟩
      · have := low (alike.mp ranked)
        right
        rcases drops with ⟨-, same⟩ | ⟨at_, le⟩
        · omega
        · exact ⟨current.trans at_, by omega⟩
      · unfold Drops
        rw [current, rank, here, here']
        exact drops

theorem drops_foldl (gone : bootableAt m' f = false)
    (same : ∀ i ∈ is, i ≠ f → ∀ info, fwdField m' i info = fwdField m i info)
    (drops : Drops f a b) : Drops f (is.foldl (Scan.at m) a) (is.foldl (Scan.at m') b) := by
  induction is generalizing a b with
  | nil => exact drops
  | cons i is ih =>
    apply ih fun j mem => same j (List.mem_cons_of_mem _ mem)
    exact drops.visit gone (same i (List.mem_cons_self ..))

/-- Without a table that is not the current one, the scan finds the same. -/
theorem scan_without (gone : bootableAt m' f = false)
    (same : ∀ i < maxFwd, i ≠ f → ∀ info, fwdField m' i info = fwdField m i info)
    (other : f ≠ (scan m num).current) (golden : num ≠ 2 → f ≠ 0) :
    (scan m' num).current = (scan m num).current ∧ (scan m' num).rank = (scan m num).rank := by
  have start : Drops f (Scan.start m num) (Scan.start m' num) := by
    left
    unfold Scan.start
    by_cases two : num = 2
    · rw [if_pos two, if_pos two]
      exact ⟨rfl, rfl⟩
    · rw [if_neg two, if_neg two]
      exact ⟨rfl, (same 0 (by decide) (golden two).symm .rank).symm⟩
  have drops : Drops f (scan m num) (scan m' num) :=
    drops_foldl gone (fun i mem => same i (scanned_lt mem)) start
  rcases drops with ⟨current, rank⟩ | ⟨current, -⟩
  · exact ⟨current.symm, rank.symm⟩
  · exact absurd current.symm other

end Drops

/-! ## Operations behind the erase -/

/-- The operation leaves the status of `f` and the other tables alone. -/
def Op.SparesTables (op : Op) (f : Nat) : Prop :=
  ∀ a n, op.flashRange = some (a, n) → ∀ x, x < maxFwd * blockSize →
    ¬InFwd f x ∨ x = fwdAddr f + FwdInfo.offset .status → x < a ∨ a + n ≤ x

theorem Op.Within.sparesTables {op : Op} {hi : Nat} (h : op.Within (maxFwd * blockSize) hi)
    (f : Nat) : op.SparesTables f := by
  intro a n range x lt _
  have := (h a n range).1
  omega

theorem Does.sparesTables {c : Cxt} {who : Issuer} {op : Op} (does : Does e s c who op)
    (track : Track s₀ s h) (hc : s.cxt = some c) (proper : Proper e s₀ h) (late : Late s)
    (erased : c.fwUpgradeState.erased = true) (open_ : who ≠ .info c.trialFwdIdx .status) :
    op.SparesTables c.trialFwdIdx := by
  cases does with
  | erase state lt =>
    rw [state] at erased
    cases erased
  | @field info value state lt header =>
    intro a n range x below apart
    cases range
    have inside := info.in_block
    have ne : info ≠ .status := by
      rintro rfl
      exact open_ rfl
    rw [length_leBytes]
    rcases apart with out | rfl
    · unfold InFwd blockSize at out
      omega
    · rcases FwdInfo.apart ne with before | behind
      · right
        omega
      · left
        simp only [FwdInfo.size] at behind
        omega
  | @entry client state fwd lt slot =>
    intro a n range x below apart
    unfold Client.entryOp at range
    cases range
    rw [length_entryBytes, fwd]
    unfold maxImages at slot
    unfold entryAddr
    rcases apart with out | rfl
    · unfold InFwd blockSize at out
      omega
    · simp only [FwdInfo.offset]
      omega
  | part state which found access =>
    obtain ⟨found, inside⟩ := access.listed track hc proper state which found
    obtain ⟨lo, hi⟩ := proper.laid.parts _ _ which found
    exact (inside.within lo hi).sparesTables _
  | image current place access =>
    have inArea := (Does.image current place access).inArea track hc proper late
    exact (InArea.within inArea proper).sparesTables _
  | copy state part imageHdr hdr access =>
    have inArea := (Does.copy state part imageHdr hdr access).inArea track hc proper late
    exact (InArea.within inArea proper).sparesTables _
  | status state lt => exact absurd rfl open_
  | fde state =>
    intro a n range
    cases range

/-! ## What is left behind -/

/-- All tables but `f` are as in `m`, and the status of `f` is blank. -/
structure Blanked (f : Nat) (m m' : Mem) : Prop where
  others : ∀ x, x < maxFwd * blockSize → ¬InFwd f x → m' x = m x
  status : m' (fwdAddr f + FwdInfo.offset .status) = 0xFF

theorem Blanked.replay {m : Mem} (blanked : Blanked f m s.flash) (lt : f < maxFwd)
    (spares : ∀ w o r, .op w o r ∈ k → o.SparesTables f) : Blanked f m (Fw.replay s k).flash where
  others := by
    intro x below out
    rw [replay_flash fun w o r mem a n range => spares w o r mem a n range x below (.inl out)]
    exact blanked.others x below out
  status := by
    have below : fwdAddr f + FwdInfo.offset .status < maxFwd * blockSize := by
      simp only [FwdInfo.offset]
      unfold fwdAddr maxFwd blockSize at *
      omega
    rw [replay_flash fun w o r mem a n range => spares w o r mem a n range _ below (.inr rfl)]
    exact blanked.status

/-! ## The course of a session -/

/-- Nothing has been done, or one table has been erased, and since then neither its status has
been touched nor another table. -/
inductive Course : Option Nat → List Event → Prop
  | still {h : List Event} (silent : ∀ who op out, .op who op out ∉ h) : Course none h
  | trial {f : Nat} {before after : List Event} (lt : f < maxFwd)
      (silent : ∀ who op out, .op who op out ∉ before)
      (spares : ∀ who op out, .op who op out ∈ after → who = .info f .status ∨ op.SparesTables f) :
      Course (some f) (before ++ .op (.fwd f) (.erase (fwdAddr f) blockSize) .done :: after)

namespace Course

theorem silent {o : Option Nat} (course : Course o h) (none : ∀ who op out, .op who op out ∉ k) :
    Course o (h ++ k) := by
  cases course with
  | still silent =>
    refine .still fun who op out mem => ?_
    obtain mem | mem := List.mem_append.mp mem
    · exact silent who op out mem
    · exact none who op out mem
  | trial lt silent spares =>
    rw [List.append_assoc]
    refine .trial lt silent fun who op out mem => ?_
    obtain mem | mem := List.mem_append.mp mem
    · exact spares who op out mem
    · exact absurd mem (none who op out)

theorem spares (course : Course (some f) h)
    (more : ∀ who op out, .op who op out ∈ k → who = .info f .status ∨ op.SparesTables f) :
    Course (some f) (h ++ k) := by
  cases course with
  | trial lt silent spares =>
    rw [List.append_assoc]
    refine .trial lt silent fun who op out mem => ?_
    obtain mem | mem := List.mem_append.mp mem
    · exact spares who op out mem
    · exact more who op out mem

theorem erase (course : Course none h) (lt : f < maxFwd) :
    Course (some f) (h ++ [.op (.fwd f) (.erase (fwdAddr f) blockSize) .done]) := by
  cases course with
  | still silent => exact .trial lt silent fun _ _ _ mem => absurd mem List.not_mem_nil

/-- Cut off before the status is written, it has left the tables as they were, but for the one
that has been erased. -/
theorem cut {o : Option Nat} (course : Course o h) (cut : k <+: h)
    (unset : ∀ f op out, .op (.info f .status) op out ∉ k) (s : St) :
    (∀ who op out, .op who op out ∉ k) ∨
      ∃ f, o = some f ∧ f < maxFwd ∧ Blanked f s.flash (replay s k).flash := by
  cases course with
  | still silent => exact .inl fun who op out mem => silent who op out (cut.subset mem)
  | @trial f before after lt silent spares =>
    obtain ⟨rest, eq⟩ := cut
    obtain ⟨more, rfl, -⟩ | ⟨more, rfl, split⟩ := List.append_eq_append_iff.mp eq
    · exact .inl fun who op out mem => silent who op out (List.mem_append_left _ mem)
    · cases more with
      | nil =>
        rw [List.append_nil]
        exact .inl silent
      | cons w more =>
        rw [List.cons_append] at split
        obtain ⟨rfl, rfl⟩ := List.cons.inj split
        right
        refine ⟨f, rfl, lt, ?_⟩
        have blanked : Blanked f s.flash (Nor.erase s.flash (fwdAddr f) blockSize) := by
          constructor
          · intro x _ out
            refine Nor.erase_outside _ ?_
            unfold InFwd at out
            omega
          · refine Nor.erase_inside _ (Nat.le_add_right _ _) ?_
            unfold blockSize
            simp only [FwdInfo.offset]
            omega
        rw [replay_append, replay_silent s silent]
        refine Blanked.replay (s := (Op.erase (fwdAddr f) blockSize).run .done s) blanked lt ?_
        intro who op out mem
        obtain rfl | spares := spares who op out (List.mem_append_left _ mem)
        · exact absurd (List.mem_append_right _ (List.mem_cons_of_mem _ mem)) (unset f op out)
        · exact spares

end Course

/-- The session changes one table at most, which is not the current one. -/
structure Underway (s₀ : St) (num : Nat) (s : St) (h : List Event) : Prop where
  devices : SameDevices s (replay s₀ h)
  clean : s.readFaults = []
  ready : s.fuInitialized = true ∧ s.fwdSupportNum = num
  course : ∃ o, Course o h ∧ (∀ f, o = some f → f = trialIndex num (scan s₀.flash num).current) ∧
    ∀ c, s.cxt = some c → o = if c.fwUpgradeState.erased then some c.trialFwdIdx else none
  aimed : ∀ c, s.cxt = some c → c.fwUpgradeState = .eraseFwd →
    c.trialFwdIdx = trialIndex num (scan s₀.flash num).current

/-- Until the trial FWD has been erased nothing else is done. -/
theorem Does.erases {c : Cxt} {who : Issuer} {op : Op} (does : Does e s c who op)
    (not : c.fwUpgradeState.erased = false) : ∃ f, who = .fwd f := by
  have absurd {P : Prop} {state : FwState} (is : c.fwUpgradeState = state)
      (yes : state.erased = true) : P := by
    rw [is, yes] at not
    cases not
  cases does with
  | erase => exact ⟨_, rfl⟩
  | field state | entry state => cases state.symm.trans not
  | part state => cases (FwState.bulk_erased state).symm.trans not
  | image current => exact absurd current.state rfl
  | copy state | status state | fde state => exact absurd state rfl

theorem Underway.step (under : Underway s₀ num s h) (m : Move e false (s, h) (t, h'))
    (dev : e.HoldsFwds) (late : Late s) (track : Track s₀ s h) (proper : Proper e s₀ h)
    (erases : ∀ f op out, .op (.fwd f) op out ∈ h' → out = .done) : Underway s₀ num t h' := by
  obtain ⟨init, support⟩ := under.ready
  have serviced := m.serviced
  obtain ⟨k, rfl, effects⟩ := m.effects
  have devices : SameDevices t (replay s₀ (h ++ k)) := by
    rw [replay_append]
    obtain ⟨flash, rram⟩ := effects.devices
    obtain ⟨flash', rram'⟩ := under.devices.replay k
    exact ⟨flash.trans flash', rram.trans rram'⟩
  have clean : t.readFaults = [] := by
    have := serviced.reads
    rw [under.clean] at this
    exact List.suffix_nil.mp this
  have ready : t.fuInitialized = true ∧ t.fwdSupportNum = num := by
    obtain ⟨init', support'⟩ := serviced.init init
    exact ⟨init', support'.trans support⟩
  obtain ⟨o, course, next, ran⟩ := under.course
  cases hd : t.cxt with
  | none =>
    obtain ⟨k', eq, silent, -⟩ := m.closed hd
    cases List.append_cancel_left eq
    exact ⟨devices, clean, ready, ⟨o, course.silent silent, next, by simp [hd]⟩, by simp [hd]⟩
  | some d =>
    obtain ⟨c, k', hc, eq, choosing⟩ := m.choosing hd
    cases List.append_cancel_left eq
    have ran := ran c hc
    suffices here : (∃ o, Course o (h ++ k) ∧
        (∀ f, o = some f → f = trialIndex num (scan s₀.flash num).current) ∧
        o = if d.fwUpgradeState.erased then some d.trialFwdIdx else none) ∧
        (d.fwUpgradeState = .eraseFwd →
          d.trialFwdIdx = trialIndex num (scan s₀.flash num).current) by
      obtain ⟨⟨o, course, next, ran⟩, aimed⟩ := here
      refine ⟨devices, clean, ready, ⟨o, course, next, fun d' hd' => ?_⟩, fun d' hd' => ?_⟩
      · cases hd.symm.trans hd'
        exact ran
      · cases hd.symm.trans hd'
        exact aimed
    cases choosing with
    | on fwd aims same unselected undone =>
      cases erased : c.fwUpgradeState.erased with
      | false =>
        rw [erased] at ran
        refine ⟨⟨o, course.silent fun who op out mem => ?_, next, ?_⟩, fun state => ?_⟩
        · obtain ⟨c', hc', does⟩ := effects.does _ _ _ mem
          cases hc.symm.trans hc'
          obtain ⟨f, rfl⟩ := does.erases erased
          rw [erases _ _ _ (List.mem_append_right _ mem)] at mem
          exact undone erased _ _ mem
        · rw [same, erased]
          exact ran
        · obtain state | yes := aims (.inl state)
          · exact fwd.trans (under.aimed c hc state)
          · cases erased.symm.trans yes
      | true =>
        rw [erased, if_pos rfl] at ran
        obtain rfl := ran
        refine ⟨⟨_, course.spares fun who op out mem => ?_, next, ?_⟩, fun state => ?_⟩
        · obtain ⟨c', hc', does⟩ := effects.does _ _ _ mem
          cases hc.symm.trans hc'
          by_cases status : who = .info c.trialFwdIdx .status
          · exact .inl status
          · exact .inr (does.sparesTables track hc proper late erased status)
        · rw [same, erased, if_pos rfl, fwd]
        · rw [state, erased] at same
          cases same
    | away unaimed not nothing =>
      rw [not] at ran
      have open_ : d.fwUpgradeState.erased = false := by
        cases erased : d.fwUpgradeState.erased with
        | false => rfl
        | true => exact absurd (.inr erased) unaimed
      rw [nothing, open_]
      refine ⟨⟨o, course.silent fun _ _ _ => List.not_mem_nil, next, ran⟩, fun state => ?_⟩
      exact absurd (.inl state) unaimed
    | select not state selected event =>
      rw [not] at ran
      obtain rfl := ran
      have untouched : s.flash = s₀.flash := by
        cases course with
        | still silent =>
          have same := under.devices.1
          rwa [replay_silent s₀ silent] at same
      refine ⟨⟨none, course.silent fun who op out mem => ?_, next, ?_⟩, fun _ => ?_⟩
      · rw [event] at mem
        cases List.mem_singleton.mp mem
      · rw [state]
        rfl
      · rw [← support, ← untouched]
        exact selectTrialFwd_index dev init under.clean selected
    | erase state fwd erased event =>
      rw [state] at ran
      obtain rfl := ran
      have aimed := under.aimed c hc state
      have lt : c.trialFwdIdx < maxFwd := by
        rw [aimed]
        exact trialIndex_lt _ _
      rw [event, erased, fwd]
      refine ⟨⟨_, course.erase lt, fun f eq => ?_, rfl⟩, fun _ => aimed⟩
      rw [← Option.some.inj eq]
      exact aimed

theorem underway_of_moves (moves : Moves e false (s, h) (t, h')) (dev : e.HoldsFwds) (late : Late s)
    (proper : Proper e s₀ h') (erases : ∀ f op out, .op (.fwd f) op out ∈ h' → out = .done)
    (track : Track s₀ s h) (under : Underway s₀ num s h) : Underway s₀ num t h' := by
  refine (invariant_of_step (I := fun x => Late x.1 ∧ (Proper e s₀ x.2 → Track s₀ x.1 x.2) ∧
      (Proper e s₀ x.2 → (∀ f op out, .op (.fwd f) op out ∈ x.2 → out = .done) →
        Underway s₀ num x.1 x.2))
    (fun x y h m => ?_) moves ⟨late, fun _ => track, fun _ _ => under⟩).2.2 proper erases
  obtain ⟨late, track, under⟩ := h
  obtain ⟨k, eq, -⟩ := m.effects
  have before : Proper e s₀ y.2 → Proper e s₀ x.2 := by
    rw [eq]
    exact Proper.before
  refine ⟨m.late late, fun proper => m.track (before proper) late (track (before proper)), ?_⟩
  intro proper erases
  refine (under (before proper) fun f op out mem => ?_).step m dev late (track (before proper))
    (before proper) erases
  rw [eq] at erases
  exact erases f op out (List.mem_append_left _ mem)

/-! ## What is found afterwards -/

/-- With `m` instead of `m₀` the same firmware is found. One table may have been changed, which was
not the current one and is not valid. -/
structure Recovers (num : Nat) (m₀ m : Mem) : Prop where
  current : (scan m num).current = (scan m₀ num).current
  rank : (scan m num).rank = (scan m₀ num).rank
  tables : (∀ x, x < maxFwd * blockSize → m x = m₀ x) ∨
    ∃ f, f ≠ (scan m₀ num).current ∧ fwdField m f .status ≠ statusValid ∧
      ∀ x, x < maxFwd * blockSize → ¬InFwd f x → m x = m₀ x

theorem Recovers.refl (num : Nat) (m : Mem) : Recovers num m m :=
  ⟨rfl, rfl, .inl fun _ _ => rfl⟩

theorem Blanked.status_ne {m m' : Mem} (blanked : Blanked f m m') :
    fwdField m' f .status ≠ statusValid := by
  have byte : load m' (fwdAddr f + FwdInfo.offset .status) (FwdInfo.size .status) = [0xFF] := by
    rw [← blanked.status]
    rfl
  rw [fwdField, byte]
  decide

theorem Blanked.recovers {m m' : Mem} (blanked : Blanked f m m')
    (next : f = trialIndex num (scan m num).current) : Recovers num m m' := by
  have other : f ≠ (scan m num).current := next ▸ trialIndex_ne _ _
  have gone : bootableAt m' f = false := by
    cases bootable : bootableAt m' f with
    | false => rfl
    | true => exact absurd (bootableAt_status bootable) blanked.status_ne
  have same : ∀ i < maxFwd, i ≠ f → ∀ info, fwdField m' i info = fwdField m i info := by
    intro i lt ne info
    refine fwdField_congr_block (fun x hx => blanked.others x ?_ fun hx' => ?_) info
    · unfold InFwd fwdAddr at hx
      unfold maxFwd blockSize at *
      omega
    · unfold InFwd fwdAddr blockSize at *
      omega
  obtain ⟨current, rank⟩ := scan_without gone same other fun three => next ▸ trialIndex_golden three
  exact ⟨current, rank, .inr ⟨f, other, blanked.status_ne, blanked.others⟩⟩

/-- A session that goes on has been begun by a module that is set up. -/
inductive Begun (e : Env) (s₀ s : St) (l : List Event) : Prop
  | idle (none : s.cxt = none) (notes : Notes l)
  | moves {s₁ : St} {k : List Event} (fresh : s₁.cxt = some freshCxt)
      (init : s₁.fuInitialized = true) (still : Still s₀ s₁) (notes : Notes k)
      (moves : Moves e false (s₁, k ++ [.start]) (s, l))

theorem Begun.restart (fuel : Nat) {p : Packet} (offset : p.offset = 0) (s : St) :
    Begun e s (sessionProcess e fuel p s).state (sessionProcess e fuel p s).trace := by
  have begins := sessionInit_begins e s
  unfold BeginsFrom at begins
  rw [List.nil_append] at begins
  unfold sessionProcess
  rw [Act.when_pos offset, Act.bind_run]
  rcases run : sessionInit e s with ⟨r, t, l⟩
  rw [run] at begins
  cases begins with
  | error none still notes =>
    rw [Act.orFail_error run, Act.andThen_error]
    exact .idle none notes
  | ok cxt init still notes =>
    rw [Act.orFail_ok run, Act.andThen_ok]
    have enterable : ∀ k, Enterable false t k := fun k =>
      ⟨.of_ctl cxt (freshCxt_ctl init), .inr (.of_ne cxt fun h => by cases h)⟩
    exact .moves cxt init still notes (passPacket_moves fuel p t _ (enterable _)).1

theorem Begun.next (begun : Begun e s₀ s l) (enterable : Enterable false s l) (fuel : Nat)
    {p : Packet} (offset : p.offset ≠ 0) :
    Begun e s₀ (sessionProcess e fuel p s).state (l ++ (sessionProcess e fuel p s).trace) := by
  cases begun with
  | idle none notes =>
    unfold sessionProcess
    rw [Act.when_neg offset, Act.bind_ok (Act.pure_run () s), Act.bind_run, getCxt_none none,
      Act.andThen_error, List.append_nil]
    exact .idle none notes
  | moves fresh init still notes moves =>
    exact .moves fresh init still notes (moves.trans (sessionProcess_moves enterable fuel offset))

theorem Calls.begun (calls : Calls e Fresh s₀ s l) : Good s ∧ Begun e s₀ s l := by
  induction calls with
  | idle none => exact ⟨fun c hc => (by cases none.symm.trans hc), .idle none .nil⟩
  | @call s₀ s l fuel p calls met ih =>
    obtain ⟨good, begun⟩ := ih
    refine ⟨good.call fuel p, ?_⟩
    by_cases offset : p.offset = 0
    · rw [if_pos offset, if_pos offset, List.nil_append]
      exact .restart fuel offset s
    · rw [if_neg offset, if_neg offset]
      exact begun.next ⟨good, .inr (met.resolve_left offset)⟩ fuel offset

theorem Notes.silent (notes : Notes l) (who : Issuer) (op : Op) (out : Outcome) :
    .op who op out ∉ l := by
  intro mem
  obtain ⟨n, ⟨⟩⟩ := notes _ mem

theorem Calls.underway (calls : Calls e Fresh s₀ s l) (dev : e.HoldsFwds) (proper : Proper e s₀ l)
    (clean : s₀.readFaults = []) (erases : ∀ f op out, .op (.fwd f) op out ∈ l → out = .done) :
    (∀ who op out, .op who op out ∉ l) ∨ Underway s₀ s.fwdSupportNum s l := by
  obtain ⟨-, begun⟩ := calls.begun
  cases begun with
  | idle none notes => exact .inl notes.silent
  | @moves s₁ k fresh init still notes moves =>
    right
    have silent : ∀ who op out, .op who op out ∉ k ++ [.start] := by
      intro who op out mem
      obtain mem | mem := List.mem_append.mp mem
      · exact notes.silent who op out mem
      · cases List.mem_singleton.mp mem
    have first : ∀ c, s₁.cxt = some c → c = freshCxt := fun c hc =>
      (Option.some.inj (fresh.symm.trans hc)).symm
    have start : Underway s₀ s₁.fwdSupportNum s₁ (k ++ [.start]) := by
      refine ⟨?_, ?_, ⟨init, rfl⟩, ⟨none, .still silent, nofun, fun c hc => ?_⟩,
        fun c hc state => ?_⟩
      · rw [replay_silent s₀ silent]
        exact ⟨still.flash, still.rram⟩
      · have suffix := still.reads
        rw [clean] at suffix
        exact List.suffix_nil.mp suffix
      · rw [first c hc]
        rfl
      · rw [first c hc] at state
        cases state
    have track : Track s₀ s₁ (k ++ [.start]) := .still still silent first
    have under := underway_of_moves moves dev (.of_state fresh fun h => by cases h) proper erases
      track start
    rw [under.ready.2]
    exact under

/-- Whenever a session is cut off before the status of the trial FWD is written, the same firmware
is found in the tables as before, and only the table of the trial FWD has been touched. -/
theorem power_loss_recovers (dev : e.HoldsFwds) (calls : Calls e Fresh s₀ s l)
    (proper : Proper e s₀ l) (clean : s₀.readFaults = [])
    (erases : ∀ f op out, .op (.fwd f) op out ∈ l → out = .done) (cut : k <+: l)
    (unset : ∀ f op out, .op (.info f .status) op out ∉ k) :
    Recovers s.fwdSupportNum s₀.flash (replay s₀ k).flash := by
  obtain silent | under := calls.underway dev proper clean erases
  · rw [replay_silent s₀ fun who op out mem => silent who op out (cut.subset mem)]
    exact .refl _ _
  · obtain ⟨o, course, next, -⟩ := under.course
    obtain silent | ⟨f, rfl, lt, blanked⟩ := course.cut cut unset s₀
    · rw [replay_silent s₀ silent]
      exact .refl _ _
    · exact blanked.recovers (next f rfl)

def Event.sets : Event → Bool
  | .op (.info _ .status) _ _ => true
  | _ => false

theorem plainRun_recovers : Recovers
    (sessionProcess plainEnv 40 (.of 0 plainUpload) plainDevice).state.fwdSupportNum
    plainDevice.flash (replay plainDevice (plainRun.takeWhile fun w => !w.sets)).flash := by
  have idle : Calls plainEnv Fresh plainDevice plainDevice [] := .idle rfl
  apply power_loss_recovers (by unfold Env.HoldsFwds; decide)
    (idle.restart 40 (.of 0 plainUpload) rfl (.inl rfl)) plainRun_proper rfl
  · intro f op out mem
    have acked := mem_of_all plainRun_acked mem
    cases out with
    | done => rfl
    | failed | rejected => cases acked
  · exact List.takeWhile_prefix _
  · intro f op out mem
    have unset := List.all_eq_true.mp List.all_takeWhile _ mem
    cases unset

end Qapp.Fw
