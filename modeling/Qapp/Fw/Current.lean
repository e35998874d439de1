import Qapp.Fw.Decoding
import Qapp.Fw.Gate
import Qapp.Fw.Start

/-!
# The two ways to find the current firmware

`fw_upgrade_get_current_index` takes the first table that is valid, has been accepted and is
not golden. The scan for the trial takes the one with the highest rank.
-/

namespace Qapp.Fw
open ByteMem Traced

/-- The body of `fw_upgrade_get_current_index` after its four reads. -/
def ordinary (magic rank status imageNums : Nat) : Bool :=
  bootable magic status imageNums && rank != rankTrial && 0 < rank

/-- The loop of `fw_upgrade_get_current_index`: whether it has found a table. -/
def currentLoop (e : Env) : List Nat → M (Bool × Nat)
  | [] => pure (false, unused)
  | i :: is => do
    let (ok₁, magic) ← getFwdInfo e i .magic 0
    if !ok₁ then pure (false, unused)
    else
      let (ok₂, rank) ← getFwdInfo e i .rank 0
      if !ok₂ then pure (false, unused)
      else
        let (ok₃, status) ← getFwdInfo e i .status 0
        if !ok₃ then pure (false, unused)
        else
          let (ok₄, imageNums) ← getFwdInfo e i .totalImage 0
          if !ok₄ then pure (false, unused)
          else if ordinary magic rank status imageNums then pure (true, i)
          else currentLoop e is

/-- `fw_upgrade_get_current_index`: whether it returned OK, and its output. -/
def getCurrentIndex (e : Env) : M (Bool × Nat) := do
  match ← (init e).attempt with
  | .error _ => pure (false, unused)
  | .ok _ =>
    let s ← Act.read
    currentLoop e (List.range s.fwdSupportNum)

/-- Table `i` is one that the loop stops at. -/
def ordinaryAt (m : Mem) (i : Nat) : Bool :=
  ordinary (fwdField m i .magic) (fwdField m i .rank) (fwdField m i .status)
    (fwdField m i .totalImage)

theorem ordinaryAt_iff {m : Mem} {i : Nat} :
    ordinaryAt m i = true ↔ RankedAt m i ∧ 0 < fwdField m i .rank := by
  unfold ordinaryAt ordinary RankedAt bootableAt
  simp

/-! ## What the loop finds -/

theorem currentLoop_cases (e : Env) (is : List Nat) (s : St) :
    ∃ ok i t, currentLoop e is s = ⟨.ok (ok, i), t, []⟩ ∧ Reads s t ∧
      (ok = true → is.find? (ordinaryAt s.flash) = some i) := by
  induction is generalizing s with
  | nil => exact ⟨false, unused, s, rfl, .refl s, nofun⟩
  | cons i is ih =>
    unfold currentLoop
    obtain ⟨ok₁, magic, s₁, run₁, r₁, h₁⟩ := getFwdInfo_cases e i .magic 0 s
    simp only [Act.bind_run, run₁, Act.andThen_ok, List.nil_append, Act.ite_run]
    cases ok₁ with
    | false => exact ⟨false, _, s₁, rfl, r₁, nofun⟩
    | true =>
    obtain ⟨ok₂, rank, s₂, run₂, r₂, h₂⟩ := getFwdInfo_cases e i .rank 0 s₁
    simp only [Act.bind_run, run₂, Act.andThen_ok, List.nil_append, Act.ite_run, Bool.not_true,
      Bool.false_eq_true, if_false]
    cases ok₂ with
    | false => exact ⟨false, _, s₂, rfl, r₁.trans r₂, nofun⟩
    | true =>
    obtain ⟨ok₃, status, s₃, run₃, r₃, h₃⟩ := getFwdInfo_cases e i .status 0 s₂
    simp only [Act.bind_run, run₃, Act.andThen_ok, List.nil_append, Act.ite_run, Bool.not_true,
      Bool.false_eq_true, if_false]
    cases ok₃ with
    | false => exact ⟨false, _, s₃, rfl, (r₁.trans r₂).trans r₃, nofun⟩
    | true =>
    obtain ⟨ok₄, nums, s₄, run₄, r₄, h₄⟩ := getFwdInfo_cases e i .totalImage 0 s₃
    simp only [run₄, Act.andThen_ok, List.nil_append, Act.ite_run, Bool.not_true,
      Bool.false_eq_true, if_false]
    have reads := ((r₁.trans r₂).trans r₃).trans r₄
    cases ok₄ with
    | false => exact ⟨false, _, s₄, rfl, reads, nofun⟩
    | true =>
    have here : ordinaryAt s.flash i = ordinary magic rank status nums := by
      rw [(h₁ rfl).1, (h₂ rfl).1, (h₃ rfl).1, (h₄ rfl).1, r₁.flash, (r₁.trans r₂).flash,
        ((r₁.trans r₂).trans r₃).flash]
      rfl
    simp only [Bool.not_true, Bool.false_eq_true, if_false]
    split
    · rename_i stops
      refine ⟨true, i, s₄, rfl, reads, fun _ => ?_⟩
      rw [List.find?_cons_of_pos (here.trans stops)]
    · rename_i goes
      obtain ⟨ok, j, t, run, r, h⟩ := ih s₄
      refine ⟨ok, j, t, run, reads.trans r, fun hok => ?_⟩
      rw [List.find?_cons_of_neg (by rw [here]; exact goes), ← reads.flash]
      exact h hok

theorem currentLoop_clean {e : Env} (dev : e.HoldsFwds) {is : List Nat}
    (his : ∀ i ∈ is, i < maxFwd) {s : St} (init : s.fuInitialized = true)
    (clean : s.readFaults = []) {i : Nat} (found : is.find? (ordinaryAt s.flash) = some i) :
    currentLoop e is s = ⟨.ok (true, i), s, []⟩ := by
  induction is with
  | nil => cases found
  | cons j is ih =>
    have hj := his j (List.mem_cons_self ..)
    unfold currentLoop
    simp only [Act.bind_run, getFwdInfo_clean dev hj _ _ init clean, Act.andThen_ok,
      Bool.not_true, Bool.false_eq_true, if_false, List.nil_append, Act.ite_run]
    cases here : ordinaryAt s.flash j with
    | true =>
      rw [List.find?_cons_of_pos here] at found
      cases found
      exact if_pos here
    | false =>
      rw [List.find?_cons_of_neg (by rw [here]; exact Bool.false_ne_true)] at found
      rw [← ih (fun k hk => his k (List.mem_cons_of_mem _ hk)) found]
      exact if_neg (by rw [show ordinary _ _ _ _ = false from here]; exact Bool.false_ne_true)

/-! ## When the scan finds the same -/

/-- Of tables with one rank, the scan takes the first. -/
theorem foldl_first (m : Mem) (is : List Nat) (a : Scan) :
    (is.foldl (Scan.at m) a).current = a.current ∧ (is.foldl (Scan.at m) a).rank = a.rank ∨
      ∃ pre post, is = pre ++ (is.foldl (Scan.at m) a).current :: post ∧
        a.rank < (is.foldl (Scan.at m) a).rank ∧
        ∀ j ∈ pre, RankedAt m j → fwdField m j .rank < (is.foldl (Scan.at m) a).rank := by
  induction is generalizing a with
  | nil => exact .inl ⟨rfl, rfl⟩
  | cons i is ih =>
    have later : ∀ a' : Scan, a'.current = a.current → a'.rank = a.rank →
        (RankedAt m i → fwdField m i .rank ≤ a.rank) →
        ((is.foldl (Scan.at m) a').current = a.current ∧
            (is.foldl (Scan.at m) a').rank = a.rank ∨
          ∃ pre post, i :: is = pre ++ (is.foldl (Scan.at m) a').current :: post ∧
            a.rank < (is.foldl (Scan.at m) a').rank ∧
            ∀ j ∈ pre, RankedAt m j → fwdField m j .rank < (is.foldl (Scan.at m) a').rank) := by
      intro a' current rank low
      have h := ih a'
      rw [current, rank] at h
      rcases h with same | ⟨pre, post, eq, above, below⟩
      · exact .inl same
      · refine .inr ⟨i :: pre, post, congrArg (i :: ·) eq, above, ?_⟩
        intro j mem ranked
        cases mem with
        | head => exact Nat.lt_of_le_of_lt (low ranked) above
        | tail _ mem => exact below j mem ranked
    rw [List.foldl_cons]
    rcases table_cases m i with trial | ranked | none
    · rw [Scan.at_trial trial]
      exact later _ rfl rfl fun ranked => absurd ranked trial.not_ranked
    · rw [Scan.at_ranked ranked]
      by_cases higher : a.rank < fwdField m i .rank
      · rw [if_pos higher]
        rcases ih { a with rank := fwdField m i .rank, current := i } with
          ⟨current, rank⟩ | ⟨pre, post, eq, above, below⟩
        · refine .inr ⟨[], is, congrArg (· :: is) current.symm, ?_, nofun⟩
          exact rank ▸ higher
        · refine .inr ⟨i :: pre, post, congrArg (i :: ·) eq, Nat.lt_trans higher above, ?_⟩
          intro j mem _
          cases mem with
          | head => exact above
          | tail _ mem => exact below j mem ‹_›
      · rw [if_neg higher]
        exact later a rfl rfl fun _ => Nat.not_lt.mp higher
    · rw [Scan.at_other none]
      refine later a rfl rfl fun ranked => ?_
      rw [ranked.1] at none
      cases none

theorem scanned_sorted (num : Nat) : (scanned num).Pairwise (· < ·) := by
  unfold scanned
  split <;> decide

theorem mem_scanned {num j : Nat} (two_or_three : num = 2 ∨ num = 3) :
    j ∈ scanned num ↔ j < num ∧ (num = 3 → j ≠ 0) := by
  rcases two_or_three with rfl | rfl
  · simp [scanned]
    omega
  · simp [scanned]
    omega

/-- Where the scan takes a table, the first ordinary one, it is the one with the highest rank. -/
theorem scan_current_iff {m : Mem} {num i : Nat} (two_or_three : num = 2 ∨ num = 3)
    (found : (List.range num).find? (ordinaryAt m) = some i) :
    (scan m num).current = i ↔
      (∀ j < num, RankedAt m j → fwdField m j .rank ≤ fwdField m i .rank) ∧
        (num = 3 → i ≠ 0 → fwdField m 0 .rank < fwdField m i .rank) := by
  obtain ⟨here, lt, before⟩ := List.find?_range_eq_some.mp found
  obtain ⟨ranked, above⟩ := ordinaryAt_iff.mp here
  have low : ∀ j < i, RankedAt m j → fwdField m j .rank = 0 := by
    intro j hj other
    by_contra positive
    have passed := before j hj
    rw [ordinaryAt_iff.mpr ⟨other, Nat.pos_of_ne_zero positive⟩] at passed
    cases passed
  have lt : i < num := List.mem_range.mp lt
  have visits : i ∈ scanned num ↔ i < num ∧ (num = 3 → i ≠ 0) := mem_scanned two_or_three
  have max := fun j (hj : j < num) (h : RankedAt m j) => rank_le_scan two_or_three hj h
  have start : (num = 2 → (Scan.start m num).rank = 0) ∧
      (num = 3 → (Scan.start m num).rank = fwdField m 0 .rank) := by
    constructor <;> rintro rfl <;> rfl
  have zero : (Scan.start m num).current = 0 := by
    unfold Scan.start
    split <;> rfl
  rcases foldl_first m (scanned num) (Scan.start m num) with
    ⟨current, rank⟩ | ⟨pre, post, eq, up, below⟩
  · -- no table is above the rank the scan starts from
    change (scan m num).current = _ at current
    change (scan m num).rank = _ at rank
    rw [current, zero]
    have here := max i lt ranked
    constructor
    · rintro rfl
      constructor
      · intro j hj other
        have := max j hj other
        rcases two_or_three with two | three
        · have := start.1 two
          omega
        · have := start.2 three
          omega
      · exact fun _ ne => absurd rfl ne
    · rintro ⟨-, golden⟩
      by_contra ne
      rcases two_or_three with two | three
      · have := start.1 two
        omega
      · have := start.2 three
        have := golden three (Ne.symm ne)
        omega
  · change _ = pre ++ (scan m num).current :: post at eq
    change _ < (scan m num).rank at up
    change ∀ j ∈ pre, _ → _ < (scan m num).rank at below
    obtain ⟨-, other, top⟩ : (scan m num).current ∈ scanned num ∧
        RankedAt m (scan m num).current ∧
        (scan m num).rank = fwdField m (scan m num).current .rank := by
      rcases (scan_scanned m num).current with ⟨-, same⟩ | ⟨mem, ranked, rank, -⟩
      · omega
      · exact ⟨mem, ranked, rank⟩
    constructor
    · intro same
      rw [same] at top
      constructor
      · intro j hj h
        exact top ▸ max j hj h
      · intro three _
        have := start.2 three
        omega
    · rintro ⟨highest, -⟩
      have mem : (scan m num).current ∈ scanned num := by
        rw [eq]
        exact List.mem_append_right _ (List.mem_cons_self ..)
      have under := highest _ ((mem_scanned two_or_three).mp mem).1 other
      have least := max i lt ranked
      rcases Nat.lt_trichotomy (scan m num).current i with less | same | more
      · have := low _ less other
        omega
      · exact same
      · exfalso
        by_cases visited : i ∈ scanned num
        · have sorted := scanned_sorted num
          rw [eq] at visited sorted
          have first : i ∈ pre := by
            rcases List.mem_append.mp visited with mem | mem
            · exact mem
            · rcases List.mem_cons.mp mem with same | mem
              · omega
              · have := (List.pairwise_cons.mp (List.pairwise_append.mp sorted).2.1).1 i mem
                omega
          have := below i first ranked
          omega
        · -- table 0 gives the rank the scan starts from
          have skipped : num = 3 ∧ i = 0 := by
            by_contra no
            exact visited (visits.mpr ⟨lt, fun three zero => no ⟨three, zero⟩⟩)
          have := start.2 skipped.1
          rw [skipped.2] at under
          omega

/-! ## The number of firmwares -/

/-- What `fw_upgrade_get_partition_base_on_golden` makes of a device that it can read. -/
def goldenNum (s : St) : Nat :=
  match findFde s.rram fun i => fdeId s.rram i == fdeIdApp && fdeRank s.rram i == fdeRankGolden with
  | some _ => 3
  | none =>
    if fwdField s.flash 0 .magic = magicV1 ∧ fwdField s.flash 0 .rank = rankGolden then 3 else 2

/-- The number of firmwares the module is set up for, or will be. -/
def supportNum (s : St) : Nat := if s.fuInitialized then s.fwdSupportNum else goldenNum s

theorem getPartitionBaseOnGolden_num (e : Env) (s : St) :
    ∃ n t, getPartitionBaseOnGolden e s = ⟨.ok n, t, []⟩ ∧ Reads s t ∧
      (n = 2 ∨ n = 3 → n = goldenNum s) := by
  unfold getPartitionBaseOnGolden goldenNum
  simp only [Act.bind_run, Act.read_run, Act.andThen_ok, Act.ite_run, List.nil_append]
  split
  · cases findFde s.rram fun i => fdeId s.rram i == fdeIdApp &&
        fdeRank s.rram i == fdeRankGolden with
    | some i => exact ⟨3, s, rfl, .refl s, fun _ => rfl⟩
    | none =>
      obtain ⟨ok, m, t, run, reads, hm⟩ := flashRead_cases e (fwdAddr 0) 512 s
      simp only [Act.bind_run, run, Act.andThen_ok, List.nil_append, Act.ite_run]
      split
      · rename_i passed
        rw [hm passed]
        split
        · exact ⟨3, t, rfl, reads, fun _ => rfl⟩
        · exact ⟨2, t, rfl, reads, fun _ => rfl⟩
      · exact ⟨1, t, rfl, reads, by rintro (⟨⟨⟩⟩ | ⟨⟨⟩⟩)⟩
  · exact ⟨1, s, rfl, .refl s, by rintro (⟨⟨⟩⟩ | ⟨⟨⟩⟩)⟩

/-- The state of a module that has been initialized. -/
structure SetUp (s t : St) : Prop where
  flash : t.flash = s.flash
  ready : Ready t
  num : t.fwdSupportNum = supportNum s
  reads : t.readFaults <:+ s.readFaults

theorem init_setUp {e : Env} {s t : St} {l : List Event} (sane : Sane s)
    (run : init e s = ⟨.ok (), t, l⟩) : SetUp s t := by
  cases initialized : s.fuInitialized with
  | true =>
    rw [init_ready initialized] at run
    cases run
    have num : s.fwdSupportNum = supportNum s := by rw [supportNum, if_pos initialized]
    exact ⟨rfl, sane.ready initialized, num, List.suffix_refl _⟩
  | false =>
    unfold init at run
    simp only [Act.bind_run, Act.read_run, Act.andThen_ok, Act.ite_run, initialized,
      Bool.false_eq_true, if_false] at run
    split at run
    · cases run
    · obtain ⟨r, u, k, alloc, same, -⟩ := allocMemParams_exact s
      rw [alloc] at run
      cases r with
      | error err => cases run
      | ok _ =>
        simp only [Act.andThen_ok, Act.update_run, Act.bind_run] at run
        generalize closed : ({ u with handles := fun k => if k < maxHandles then
          { u.handles k with refCount := 0 } else u.handles k } : St) = u' at run
        have alike : u'.flash = s.flash ∧ u'.rram = s.rram ∧ u'.readFaults = s.readFaults := by
          rw [← closed, same]
          exact ⟨rfl, rfl, rfl⟩
        obtain ⟨n, v, golden, reads, num⟩ := getPartitionBaseOnGolden_num e u'
        have told : goldenNum u' = goldenNum s := by
          unfold goldenNum
          rw [alike.1, alike.2.1]
        simp only [golden, Act.andThen_ok, List.nil_append] at run
        split at run
        · cases run
        · rename_i enough
          have enough : n = 2 ∨ n = 3 := by omega
          cases run
          constructor
          · exact reads.flash.trans alike.1
          · exact ⟨rfl, enough⟩
          · rw [supportNum, initialized]
            exact (num enough).trans told
          · exact alike.2.2 ▸ reads.suffix

/-- Both functions begin with `init`. -/
theorem getCurrentIndex_init {e : Env} {s t : St} {l : List Event}
    (run : init e s = ⟨.ok (), t, l⟩) :
    (getCurrentIndex e s).res = (currentLoop e (List.range t.fwdSupportNum) t).res := by
  unfold getCurrentIndex
  simp only [Act.bind_run, Act.attempt, run, Act.andThen_ok, Act.read_run, List.nil_append]

/-! ## When they agree -/

/-- What `s` makes of reads that fail as `faults` says. -/
def St.reading (s : St) (faults : List (Option Mem)) : St := { s with readFaults := faults }

/-- An index that is returned is the one that the scan for the trial reports when its reads
succeed. -/
def ScansAgree (e : Env) (s : St) : Prop :=
  ∀ faults i, (getCurrentIndex e (s.reading faults)).res = .ok (true, i) →
    ∃ found a, (getTrialActiveFwdIndex e (s.reading [])).res = .ok (found, a) ∧ a.current = i

/-- Only a table behind another ordinary one is outranked by a later one, or with three
firmwares by the rank that the golden one holds. -/
structure Aligned (m : Mem) (num : Nat) : Prop where
  first : ∀ i j, i < j → j < num → ordinaryAt m i → ordinaryAt m j →
    fwdField m i .rank < fwdField m j .rank → ∃ k < i, ordinaryAt m k
  golden : num = 3 → ∀ i < num, i ≠ 0 → ordinaryAt m i →
    fwdField m i .rank ≤ fwdField m 0 .rank → ∃ k < i, ordinaryAt m k

theorem aligned_iff {m : Mem} {num : Nat} (two_or_three : num = 2 ∨ num = 3) :
    Aligned m num ↔ ∀ i, (List.range num).find? (ordinaryAt m) = some i →
      (scan m num).current = i := by
  constructor
  · intro aligned i found
    obtain ⟨here, lt, before⟩ := List.find?_range_eq_some.mp found
    have lt := List.mem_range.mp lt
    have first : ¬∃ k < i, ordinaryAt m k := by
      rintro ⟨k, hk, stops⟩
      have passed := before k hk
      rw [stops] at passed
      cases passed
    apply (scan_current_iff two_or_three found).mpr
    constructor
    · intro j hj ranked
      by_contra higher
      have higher := Nat.not_le.mp higher
      have stops := ordinaryAt_iff.mpr ⟨ranked, by omega⟩
      rcases Nat.lt_trichotomy i j with less | same | more
      · exact first (aligned.first i j less hj here stops higher)
      · exact Nat.lt_irrefl _ (same ▸ higher)
      · exact first ⟨j, more, stops⟩
    · intro three ne
      by_contra above
      exact first (aligned.golden three i lt ne here (Nat.not_lt.mp above))
  · intro agree
    have finds : ∀ i < num, ordinaryAt m i → (¬∃ k < i, ordinaryAt m k) →
        (List.range num).find? (ordinaryAt m) = some i := by
      intro i hi here first
      refine List.find?_range_eq_some.mpr ⟨here, List.mem_range.mpr hi, fun k hk => ?_⟩
      rw [Bool.not_eq_true']
      exact Bool.eq_false_iff.mpr fun stops => first ⟨k, hk, stops⟩
    constructor
    · intro i j less hj here there higher
      by_contra first
      have found := finds i (Nat.lt_trans less hj) here first
      have highest := ((scan_current_iff two_or_three found).mp (agree i found)).1
      have := highest j hj (ordinaryAt_iff.mp there).1
      omega
    · intro three i hi ne here low
      by_contra first
      have found := finds i hi here first
      have := ((scan_current_iff two_or_three found).mp (agree i found)).2 three ne
      omega

theorem reading_sane {s : St} (sane : Sane s) (faults : List (Option Mem)) :
    Sane (s.reading faults) where
  num := sane.num
  ready initialized := ⟨(sane.ready initialized).init, (sane.ready initialized).num⟩

theorem canInit_of_init (e : Env) {s : St} (initialized : s.fuInitialized = true) :
    CanInit e (s.reading []) := .inl initialized

/-- A module that is initialized with some faults is so without any. -/
theorem canInit_reading {e : Env} {s : St} {faults : List (Option Mem)}
    (can : CanInit e (s.reading faults)) : CanInit e (s.reading []) := by
  rcases can with initialized | ⟨ready, given, valid, golden | ⟨inside, -⟩⟩
  · exact .inl initialized
  · exact .inr ⟨ready, given, valid, .inl golden⟩
  · exact .inr ⟨ready, given, valid, .inr ⟨inside, rfl⟩⟩

theorem init_reading {e : Env} {s : St} (sane : Sane s) {faults : List (Option Mem)}
    (can : CanInit e (s.reading faults)) :
    ∃ t l, init e (s.reading faults) = ⟨.ok (), t, l⟩ ∧ SetUp (s.reading faults) t := by
  obtain ⟨r, t, l, run, -, -, -, ok, -⟩ := init_exact e (s.reading faults)
  obtain rfl := ok.mpr can
  exact ⟨t, l, run, init_setUp (reading_sane sane faults) run⟩

theorem ScansAgree.aligned {e : Env} (dev : e.HoldsFwds) {s : St} (sane : Sane s)
    (agree : ScansAgree e s) (can : CanInit e (s.reading [])) :
    Aligned s.flash (supportNum s) := by
  obtain ⟨t, l, run, up⟩ := init_reading sane can
  have clean : t.readFaults = [] := List.suffix_nil.mp up.reads
  have flash : t.flash = s.flash := up.flash
  have num : t.fwdSupportNum = supportNum s := up.num
  have two_or_three : supportNum s = 2 ∨ supportNum s = 3 := num ▸ up.ready.num
  apply (aligned_iff two_or_three).mpr
  intro i found
  have inside : ∀ j ∈ List.range t.fwdSupportNum, j < maxFwd := by
    intro j mem
    have := List.mem_range.mp mem
    rw [num] at this
    unfold maxFwd
    omega
  have loop := currentLoop_clean dev inside up.ready.init clean (by rw [num, flash]; exact found)
  obtain ⟨found', a, scanned, same⟩ := agree [] i
    ((getCurrentIndex_init run).trans (congrArg Out.res loop))
  rw [getTrialActiveFwdIndex_init run up.ready.init,
    getTrialActiveFwdIndex_clean dev up.ready.init up.ready.several clean, flash, num] at scanned
  cases scanned
  exact same

theorem Aligned.scansAgree {e : Env} (dev : e.HoldsFwds) {s : St} (sane : Sane s)
    (aligned : CanInit e (s.reading []) → Aligned s.flash (supportNum s)) : ScansAgree e s := by
  intro faults i returned
  obtain ⟨r, t, l, run, -, -, -, ok, -⟩ := init_exact e (s.reading faults)
  cases r with
  | error err =>
    unfold getCurrentIndex at returned
    simp [Act.attempt, run] at returned
  | ok _ =>
    have can := canInit_reading (ok.mp rfl)
    have up := init_setUp (reading_sane sane faults) run
    have flash : t.flash = s.flash := up.flash
    have num : t.fwdSupportNum = supportNum s := up.num
    have two_or_three : supportNum s = 2 ∨ supportNum s = 3 := num ▸ up.ready.num
    obtain ⟨stops, j, u, loop, -, finds⟩ := currentLoop_cases e (List.range t.fwdSupportNum) t
    rw [getCurrentIndex_init run, loop] at returned
    cases returned
    have found := finds rfl
    rw [flash, num] at found
    obtain ⟨t', l', run', up'⟩ := init_reading sane can
    have clean : t'.readFaults = [] := List.suffix_nil.mp up'.reads
    have flash' : t'.flash = s.flash := up'.flash
    have num' : t'.fwdSupportNum = supportNum s := up'.num
    rw [getTrialActiveFwdIndex_init run' up'.ready.init,
      getTrialActiveFwdIndex_clean dev up'.ready.init up'.ready.several clean, flash', num']
    exact ⟨_, _, rfl, (aligned_iff two_or_three).mp (aligned can) i found⟩

/-! ## Devices in use -/

/-- What happens to a device. After a reset the boot loader has set up the descriptor table. -/
inductive Upkeep (e : Env) : St → St → Prop
  | faults (s : St) (reads ops : List (Option Mem)) (oom : List Bool) :
      Upkeep e s { s with readFaults := reads, opFaults := ops, oom := oom }
  | upload (fuel : Nat) (p : Packet) (s : St) : Upkeep e s (sessionProcess e fuel p s).state
  | accept (garbage : Nat) (s : St) : Upkeep e s (acceptTrialFwd e garbage s).state
  | reject (s : St) : Upkeep e s (rejectTrialFwd e s).state
  | erase (i : Nat) (s : St) : Upkeep e s (eraseFwd e i s).state
  | reset (rram : Mem) (s : St) : Upkeep e s { s with
      rram := rram, handles := fun _ => ⟨0, 0, 0, 0, 0, 0, 0⟩, memParams := false,
      fuInitialized := false, fwdSupportNum := 0, cxt := none, imageHdr := none }

/-- A device that has not been in use has one firmware, and its module is not initialized. -/
structure Delivered (s : St) : Prop where
  running : RankedAt s.flash 0
  others : ∀ i, 0 < i → i < maxFwd → bootableAt s.flash i = false
  idle : s.fuInitialized = false ∧ s.fwdSupportNum = 0 ∧ s.cxt = none ∧ s.imageHdr = none

inductive InUse (e : Env) : St → Prop
  | delivered {s : St} (new : Delivered s) : InUse e s
  | step {s t : St} (before : InUse e s) (next : Upkeep e s t) : InUse e t

/-- The two functions agree exactly on the tables whose first ordinary one is not outranked. -/
theorem scans_agree_iff {e : Env} (dev : e.HoldsFwds) {s : St} (sane : Sane s) :
    ScansAgree e s ↔ (CanInit e (s.reading []) → Aligned s.flash (supportNum s)) :=
  ⟨fun agree => agree.aligned dev sane, fun aligned => Aligned.scansAgree dev sane aligned⟩

theorem plainEnv_holdsFwds : plainEnv.HoldsFwds := by
  unfold Env.HoldsFwds
  decide

/-- FWD 0 has rank 2 and FWD 1 rank 1. -/
def rankedDevice : St := { plainDevice with
  flash := store (store plainDevice.flash (fwdAddr 0 + FwdInfo.offset .rank) (leBytes 4 2)) (fwdAddr 1)
    (encodedFwd [entryBytes appImgId 1 (302 * blockSize) blockSize]) }

theorem rankedDevice_agree :
    (ordinaryAt rankedDevice.flash 0 && ordinaryAt rankedDevice.flash 1) = true ∧
    (getCurrentIndex plainEnv rankedDevice).res.toOption = some (true, 0) ∧
    ScansAgree plainEnv rankedDevice := by
  refine ⟨by decide, by decide, ?_⟩
  have sane : Sane rankedDevice := ⟨by decide, nofun⟩
  apply (scans_agree_iff plainEnv_holdsFwds sane).mpr
  intro _
  have num : supportNum rankedDevice = 2 := by decide
  rw [num]
  constructor
  · intro i j lt two _ _ outranked
    obtain rfl : i = 0 := by omega
    obtain rfl : j = 1 := by omega
    exact absurd outranked (by decide)
  · nofun

/-! ## An acceptance that is cut off -/

def uploadedPlain : Traced.Out St Event Status Bool :=
  sessionProcess plainEnv 40 (.of 0 plainUpload) plainDevice

def trialDevice : St := { uploadedPlain.state with
  rram := store uploadedPlain.state.rram (fdeAddr 0 + 4) (leBytes 4 fdeRankTrial)
  handles := fun _ => ⟨0, 0, 0, 0, 0, 0, 0⟩, memParams := false, fuInitialized := false
  fwdSupportNum := 0, cxt := none, imageHdr := none }

def interruptedAccept : Traced.Out St Event Status Unit :=
  acceptTrialFwd plainEnv 0 { trialDevice with
    readFaults := [], opFaults := [none, some trialDevice.flash], oom := [] }

theorem interruptedAccept_checks : ordinaryAt interruptedAccept.state.flash 0 = true ∧
    ordinaryAt interruptedAccept.state.flash 1 = true ∧
    fwdField interruptedAccept.state.flash 0 .rank <
      fwdField interruptedAccept.state.flash 1 .rank ∧
    interruptedAccept.state.fuInitialized = true ∧ interruptedAccept.state.fwdSupportNum = 2 := by
  decide +kernel

theorem plainDevice_delivered : Delivered plainDevice where
  running := by
    unfold RankedAt
    decide
  others := by
    intro i pos lt
    have : i = 1 ∨ i = 2 := by
      unfold maxFwd at lt
      omega
    rcases this with rfl | rfl <;> decide
  idle := ⟨rfl, rfl, rfl, rfl⟩

theorem interruptedAccept_inUse : InUse plainEnv interruptedAccept.state := by
  have uploaded : InUse plainEnv uploadedPlain.state :=
    .step (.delivered plainDevice_delivered) (.upload 40 (.of 0 plainUpload) plainDevice)
  have trial : InUse plainEnv trialDevice := .step uploaded (.reset _ uploadedPlain.state)
  have warned := InUse.step trial (.faults trialDevice [] [none, some trialDevice.flash] [])
  exact .step warned (.accept 0 _)

/-- The write that retires the old firmware does not happen: the old one stays the first valid
one, and the promoted one has the higher rank. -/
theorem interrupted_scans_differ : ¬∀ (e : Env) (s : St), e.HoldsFwds → Sane s → InUse e s →
    ScansAgree e s := by
  intro all
  obtain ⟨old, new, outranked, initialized, num⟩ := interruptedAccept_checks
  have sane : Sane interruptedAccept.state := by
    constructor
    · rw [num]
      decide
    · exact fun _ => ⟨initialized, .inl num⟩
  have agree := all plainEnv interruptedAccept.state plainEnv_holdsFwds sane interruptedAccept_inUse
  have can := canInit_of_init plainEnv initialized
  have aligned := agree.aligned plainEnv_holdsFwds sane can
  rw [supportNum, if_pos initialized, num] at aligned
  obtain ⟨k, none, -⟩ := aligned.first 0 1 (by decide) (by decide) old new outranked
  exact absurd none (Nat.not_lt_zero k)

end Qapp.Fw
