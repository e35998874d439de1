import Mathlib.Data.List.Find
import Qapp.Fw.Access
import Qapp.Fw.Decoding

/-!
# Rejecting the trial firmware

What `rejectTrialFwd` leaves of the descriptor blocks and of the descriptor table.
-/

namespace Qapp.Fw
open ByteMem Traced

variable {e : Env} {s t : St} {m m' : Mem}

/-! ## The descriptor blocks -/

/-- The flash `rejectTrialFwd` leaves. -/
def rejectedFlash (m : Mem) (num : Nat) : Mem :=
  let trial := (scan m num).trial
  let m' := Nor.program m (fwdAddr trial + FwdInfo.offset .status)
    (leBytes (FwdInfo.size .status) statusInvalid)
  Nor.program m' (fwdAddr trial + FwdInfo.offset .rank) (leBytes (FwdInfo.size .rank) 1)

theorem rejectedFlash_other {num i x : Nat} (ne : i ≠ (scan m num).trial) (hx : InFwd i x) :
    rejectedFlash m num x = m x := by
  unfold rejectedFlash
  rw [program_other_block _ _ _ ne hx, program_other_block _ _ _ ne hx]

theorem rejectedFlash_status (m : Mem) (num : Nat) :
    fwdField (rejectedFlash m num) (scan m num).trial .status = statusInvalid := by
  unfold rejectedFlash
  rw [fwdField_program_ne _ _ (.inr (by decide))]
  exact fwdField_program_invalid _ _

/-- The entries of a table are behind the fields. -/
theorem fwdEntry_rejectedFlash (m : Mem) (num fwdIdx i : Nat) (hi : i < maxImages) :
    fwdEntry (rejectedFlash m num) fwdIdx i = fwdEntry m fwdIdx i := by
  have same : ∀ k, k < 16 → rejectedFlash m num (entryAddr fwdIdx i + k) =
      m (entryAddr fwdIdx i + k) := by
    intro k hk
    have status := FwdInfo.in_block .status
    have rank := FwdInfo.in_block .rank
    unfold rejectedFlash
    rw [Nor.program_outside, Nor.program_outside]
    · rw [length_leBytes]
      unfold entryAddr fwdAddr blockSize maxImages at *
      omega
    · rw [length_leBytes]
      unfold entryAddr fwdAddr blockSize maxImages at *
      omega
  have word : ∀ k, k ≤ 12 → word (rejectedFlash m num) (entryAddr fwdIdx i + k) =
      word m (entryAddr fwdIdx i + k) := by
    intro k hk
    apply word_congr
    intro x lo hi
    obtain ⟨d, rfl⟩ := Nat.le.dest lo
    rw [Nat.add_assoc]
    exact same _ (by omega)
  unfold fwdEntry
  rw [word 4 (by omega), word 8 (by omega), word 12 (by omega)]
  have := word 0 (by omega)
  rw [Nat.add_zero] at this
  rw [this]

theorem entryOf_rejectedFlash (m : Mem) (num fwdIdx id : Nat) :
    entryOf (rejectedFlash m num) fwdIdx id = entryOf m fwdIdx id := by
  unfold entryOf
  apply List.find?_congr
  intro i hi
  rw [fwdEntry_rejectedFlash m num fwdIdx i (List.mem_range.mp hi)]

/-- At most one of the tables that are scanned is a trial. -/
def OneTrial (m : Mem) (num : Nat) : Prop :=
  ∀ i ∈ scanned num, ∀ j ∈ scanned num, TrialAt m i → TrialAt m j → i = j

/-- A scan that skips the trial finds the same current firmware. -/
theorem foldl_rejected {is : List Nat} {trial : Nat} (only : ∀ i ∈ is, TrialAt m i → i = trial)
    (was : TrialAt m trial) (rejected : bootableAt m' trial = false)
    (others : ∀ i, i ≠ trial → ∀ x, InFwd i x → m' x = m x) (a : Scan) (k : Nat) :
    is.foldl (Scan.at m') { a with trial := k } =
      { is.foldl (Scan.at m) a with trial := k } := by
  induction is generalizing a with
  | nil => rfl
  | cons i is ih =>
    have only' := fun j hj => only j (List.mem_cons_of_mem i hj)
    rw [List.foldl_cons, List.foldl_cons]
    by_cases h : i = trial
    · subst h
      rw [Scan.at_trial was, Scan.at_other rejected]
      exact ih only' { a with trial := i }
    · have boot := bootableAt_congr (others i h)
      have rank := fwdField_congr_block (others i h) .rank
      rcases table_cases m i with trial' | ranked | none
      · exact absurd (only i (List.mem_cons_self ..) trial') h
      · have ranked' : RankedAt m' i := ⟨by rw [boot]; exact ranked.1, by rw [rank]; exact ranked.2⟩
        rw [Scan.at_ranked ranked, Scan.at_ranked ranked', rank]
        by_cases higher : a.rank < fwdField m i .rank
        · simp only [higher, if_true]
          exact ih only' { a with rank := fwdField m i .rank, current := i }
        · simp only [higher, if_false]
          exact ih only' a
      · rw [Scan.at_other none, Scan.at_other (by rw [boot]; exact none)]
        exact ih only' a

theorem scan_rejectedFlash {num : Nat} (two_or_three : num = 2 ∨ num = 3)
    (found : (scan m num).trial ≠ unused) (one : OneTrial m num) :
    scan (rejectedFlash m num) num = { scan m num with trial := unused } := by
  obtain ⟨mem, trial⟩ := scan_trial_mem found
  have rejected : bootableAt (rejectedFlash m num) (scan m num).trial = false := by
    by_contra boot
    have := bootableAt_status (Bool.not_eq_false _ ▸ boot)
    rw [rejectedFlash_status] at this
    exact absurd this (by decide)
  have start : Scan.start (rejectedFlash m num) num = { Scan.start m num with trial := unused } := by
    rcases two_or_three with rfl | rfl
    · rfl
    · rw [Scan.start_three, Scan.start_three, fwdField_congr_block fun x hx =>
        rejectedFlash_other (trial_ne_zero_three found).symm hx]
  unfold scan at start ⊢
  rw [start]
  exact foldl_rejected (fun i hi ht => one i hi _ mem ht trial) trial rejected
    (fun i ne x hx => rejectedFlash_other ne hx) _ _

/-! ## The descriptor table -/

/-- The state of a descriptor table entry. -/
def fdeState (m : Mem) (i : Nat) : Nat := word m (fdeAddr i + 16)

/-- The descriptor table with entry `i` rejected. -/
def rejectedFdt (m : Mem) (i : Nat) : Mem :=
  store m (fdeAddr i) (fdeUpdated m i fdeRankAged fdeStateInvalid (word m (fdeAddr i + 20)))

theorem length_fdeUpdated (m : Mem) (i rank state version : Nat) :
    (fdeUpdated m i rank state version).length = 32 := by
  simp [fdeUpdated]

theorem fdeUpdated_take_id (m : Mem) (i rank state version : Nat) :
    (fdeUpdated m i rank state version).take 4 = load m (fdeAddr i) 4 := by
  unfold fdeUpdated
  simp only [List.append_assoc]
  exact List.take_left' (length_load _ _ _)

theorem fdeUpdated_drop_id (m : Mem) (i rank state version : Nat) :
    (fdeUpdated m i rank state version).drop 4 = leBytes 4 rank ++ (load m (fdeAddr i + 8) 8 ++
      (leBytes 4 state ++ (leBytes 4 version ++ load m (fdeAddr i + 24) 8))) := by
  unfold fdeUpdated
  simp only [List.append_assoc]
  exact List.drop_left' (length_load _ _ _)

theorem fdeUpdated_drop_rank (m : Mem) (i rank state version : Nat) :
    (fdeUpdated m i rank state version).drop 8 = load m (fdeAddr i + 8) 8 ++
      (leBytes 4 state ++ (leBytes 4 version ++ load m (fdeAddr i + 24) 8)) := by
  rw [show 8 = 4 + 4 from rfl, ← List.drop_drop, fdeUpdated_drop_id]
  exact List.drop_left' (length_leBytes _ _)

theorem fdeUpdated_drop_addr (m : Mem) (i rank state version : Nat) :
    (fdeUpdated m i rank state version).drop 16 =
      leBytes 4 state ++ (leBytes 4 version ++ load m (fdeAddr i + 24) 8) := by
  rw [show 16 = 8 + 8 from rfl, ← List.drop_drop, fdeUpdated_drop_rank]
  exact List.drop_left' (length_load _ _ _)

theorem fdeUpdated_drop_state (m : Mem) (i rank state version : Nat) :
    (fdeUpdated m i rank state version).drop 20 =
      leBytes 4 version ++ load m (fdeAddr i + 24) 8 := by
  rw [show 20 = 16 + 4 from rfl, ← List.drop_drop, fdeUpdated_drop_addr]
  exact List.drop_left' (length_leBytes _ _)

theorem load_rejectedFdt (m : Mem) (i : Nat) {k n : Nat} (h : k + n ≤ 32) :
    load (rejectedFdt m i) (fdeAddr i + k) n = ((fdeUpdated m i fdeRankAged fdeStateInvalid
      (word m (fdeAddr i + 20))).drop k).take n :=
  load_store_inside m (fdeAddr i) (by rw [length_fdeUpdated]; exact h)

theorem rejectedFdt_rank (m : Mem) (i : Nat) : fdeRank (rejectedFdt m i) i = fdeRankAged := by
  unfold fdeRank word
  rw [load_rejectedFdt m i (by decide), fdeUpdated_drop_id, List.take_left' (length_leBytes _ _),
    leNat_leBytes]
  decide

theorem rejectedFdt_state (m : Mem) (i : Nat) :
    fdeState (rejectedFdt m i) i = fdeStateInvalid := by
  unfold fdeState word
  rw [load_rejectedFdt m i (by decide), fdeUpdated_drop_addr, List.take_left' (length_leBytes _ _),
    leNat_leBytes]
  decide

/-- Everything but the rank and the state of the entry stays. -/
theorem rejectedFdt_rest (m : Mem) (i : Nat) {x : Nat}
    (rank : ¬(fdeAddr i + 4 ≤ x ∧ x < fdeAddr i + 8))
    (state : ¬(fdeAddr i + 16 ≤ x ∧ x < fdeAddr i + 20)) : rejectedFdt m i x = m x := by
  have version : leBytes 4 (word m (fdeAddr i + 20)) = load m (fdeAddr i + 20) 4 := by
    have := leBytes_leNat (load m (fdeAddr i + 20) 4)
    rwa [length_load] at this
  have id := load_rejectedFdt m i (k := 0) (n := 4) (by decide)
  rw [List.drop_zero, fdeUpdated_take_id] at id
  have addr := load_rejectedFdt m i (k := 8) (n := 8) (by decide)
  rw [fdeUpdated_drop_rank, List.take_left' (length_load _ _ _)] at addr
  have tail := load_rejectedFdt m i (k := 20) (n := 12) (by decide)
  rw [fdeUpdated_drop_state, version, ← load_append m (fdeAddr i + 20) 4 8,
    List.take_of_length_le (by simp)] at tail
  by_cases inside : fdeAddr i ≤ x ∧ x < fdeAddr i + 32
  · rcases (by omega : x < fdeAddr i + 4 ∨ fdeAddr i + 8 ≤ x ∧ x < fdeAddr i + 8 + 8 ∨
      fdeAddr i + 20 ≤ x) with h | h | h
    · exact eq_of_load_eq id inside.1 h
    · exact eq_of_load_eq addr h.1 h.2
    · exact eq_of_load_eq tail h (by omega)
  · apply store_apply_of_not_mem
    rw [length_fdeUpdated]
    omega

theorem word_rejectedFdt {i a : Nat} (rank : a + 4 ≤ fdeAddr i + 4 ∨ fdeAddr i + 8 ≤ a)
    (state : a + 4 ≤ fdeAddr i + 16 ∨ fdeAddr i + 20 ≤ a) :
    word (rejectedFdt m i) a = word m a := by
  apply word_congr
  intro x lo hi
  exact rejectedFdt_rest m i (by omega) (by omega)

/-- The entry of an SBL image is as the rejection is to leave it. -/
structure FdeRejected (before after : Mem) (i : Nat) : Prop where
  listed : i < numFde before ∧ fdeId before i = fdeIdSbl ∧ fdeRank before i = fdeRankTrial
  rank : fdeRank after i = fdeRankAged
  state : fdeState after i = fdeStateInvalid
  rest : ∀ x, ¬(fdeAddr i + 4 ≤ x ∧ x < fdeAddr i + 8) →
    ¬(fdeAddr i + 16 ≤ x ∧ x < fdeAddr i + 20) → after x = before x
  /-- Unless an earlier entry is AGED, too, it is the next one to be selected. -/
  selectable : ∃ j, selectSblTrialFde after = some (j, fdeImgAddr after j, sblMemSize) ∧ j ≤ i ∧
    ((∀ k < i, ¬(fdeId before k = fdeIdSbl ∧ fdeRank before k = fdeRankAged)) → j = i)

theorem rejectedFdt_selectable {i : Nat} (valid : fdtValid m = true) (lt : i < numFde m)
    (id : fdeId m i = fdeIdSbl) : ∃ j, selectSblTrialFde (rejectedFdt m i) =
      some (j, fdeImgAddr (rejectedFdt m i) j, sblMemSize) ∧ j ≤ i ∧
    ((∀ k < i, ¬(fdeId m k = fdeIdSbl ∧ fdeRank m k = fdeRankAged)) → j = i) := by
  have signature : word (rejectedFdt m i) fdtStart = word m fdtStart :=
    word_rejectedFdt (by unfold fdeAddr; omega) (by unfold fdeAddr; omega)
  have num : numFde (rejectedFdt m i) = numFde m :=
    word_rejectedFdt (by unfold fdeAddr; omega) (by unfold fdeAddr; omega)
  have ids : ∀ k, fdeId (rejectedFdt m i) k = fdeId m k := by
    intro k
    apply word_rejectedFdt
    · unfold fdeAddr
      omega
    · unfold fdeAddr
      omega
  have ranks : ∀ k, k ≠ i → fdeRank (rejectedFdt m i) k = fdeRank m k := by
    intro k ne
    apply word_rejectedFdt
    · unfold fdeAddr
      omega
    · unfold fdeAddr
      omega
  have valid' : fdtValid (rejectedFdt m i) = true := by
    unfold fdtValid at valid ⊢
    rw [signature, num]
    exact valid
  have test : (fdeId (rejectedFdt m i) i == fdeIdSbl &&
      fdeRank (rejectedFdt m i) i == fdeRankAged) = true := by
    rw [ids, id, rejectedFdt_rank]
    decide
  have found : (findFde (rejectedFdt m i) fun k => fdeId (rejectedFdt m i) k == fdeIdSbl &&
      fdeRank (rejectedFdt m i) k == fdeRankAged).isSome = true := by
    unfold findFde
    rw [List.find?_isSome]
    exact ⟨i, List.mem_range.mpr (by rw [num]; exact lt), test⟩
  obtain ⟨j, found⟩ := Option.isSome_iff_exists.mp found
  have first : j ≤ i := by
    by_contra later
    have := List.find?_range_eq_some.mp found
    have := this.2.2 i (by omega)
    rw [test] at this
    cases this
  refine ⟨j, ?_, first, fun none => ?_⟩
  · unfold selectSblTrialFde
    rw [valid', if_pos rfl, found]
    rfl
  · by_contra ne
    have aged := List.find?_some found
    simp only [Bool.and_eq_true, beq_iff_eq] at aged
    rw [ids, ranks j ne] at aged
    exact none j (by omega) aged

/-! ## The rejection -/

/-- Setting a field that succeeds is one write. -/
theorem setFwdInfo_done {i : Nat} {info : FwdInfo} {v : Nat}
    (ok : (setFwdInfo e i info v s).res = .ok ()) : ∃ t l, setFwdInfo e i info v s = ⟨.ok (), t, l⟩ ∧
      t = { s with
        flash := Nor.program s.flash (fwdAddr i + info.offset) (leBytes info.size v)
        opFaults := t.opFaults } := by
  obtain ⟨out, t, run, -, ran⟩ := flashWrite_cases e (.info i info) (fwdAddr i + info.offset)
    (leBytes info.size v) s
  revert ok
  unfold setFwdInfo
  simp only [Act.bind_run, validation_run]
  split
  · simp only [Act.andThen_ok, Act.ite_run]
    split
    · simp
    · rw [run]
      cases out with
      | done => exact fun _ => ⟨t, _, rfl, ran.eq⟩
      | failed left => intro h; simp [Outcome.res] at h
      | rejected => intro h; simp [Outcome.res] at h
  · simp

/-- A table that has no entry for an image is searched in vain. -/
theorem findPartition_missing {fwdIdx id : Nat} (lt : fwdIdx < maxFwd)
    (missing : (findPartition e fwdIdx id s).res = .error .reachMaxImageEntry) :
    entryOf s.flash fwdIdx id = none := by
  revert missing
  unfold findPartition
  simp only [Act.bind_run, validation_run]
  split
  · simp only [Act.andThen_ok, Nat.not_le.mpr lt, if_false, Act.bind_run, Act.read_run]
    cases freeHandle s with
    | none => simp
    | some k =>
      obtain ⟨ok, m, t, run, -, same⟩ := flashRead_cases e (fwdAddr fwdIdx) 512 s
      simp only [Act.bind_run, run, Act.andThen_ok, Act.ite_run]
      cases ok with
      | false => simp
      | true =>
        rw [same rfl]
        cases entryOf s.flash fwdIdx id with
        | none => simp
        | some i => simp
  · simp

theorem rejectSblTrialFde_ok (e : Env) (ok : (rejectSblTrialFde s).res = .ok ()) :
    fdtValid s.rram = true ∧ ∃ i, (findFde s.rram fun i => fdeId s.rram i == fdeIdSbl &&
        fdeRank s.rram i == fdeRankTrial) = some i ∧
      (rejectSblTrialFde s).state = { s with
        rram := rejectedFdt s.rram i
        opFaults := (rejectSblTrialFde s).state.opFaults } := by
  revert ok
  unfold rejectSblTrialFde
  simp only [Act.bind_run, Act.read_run, Act.andThen_ok, Act.ite_run]
  cases valid : fdtValid s.rram with
  | false => simp
  | true =>
    simp only [Bool.not_true, Bool.false_eq_true, if_false]
    cases found : findFde s.rram fun i => fdeId s.rram i == fdeIdSbl &&
      fdeRank s.rram i == fdeRankTrial with
    | none => simp
    | some i =>
      obtain ⟨out, t, run, -, ran⟩ := rramWrite_cases e (.fde i) (fdeAddr i)
        (fdeUpdated s.rram i fdeRankAged fdeStateInvalid (word s.rram (fdeAddr i + 20))) s
      simp only [run]
      cases out with
      | done => exact fun _ => ⟨trivial, i, rfl, ran.eq⟩
      | failed left => intro h; simp [Outcome.res] at h
      | rejected => intro h; simp [Outcome.res] at h

/-- The number of firmwares the module is configured for. -/
def configured (e : Env) (s : St) : Nat := (init e s).state.fwdSupportNum

/-- What rejecting is for. `before` and `after` are the states around it. -/
structure Rejected (num : Nat) (before after : St) : Prop where
  found : (scan before.flash num).trial ≠ unused
  scan : scan after.flash num = { scan before.flash num with trial := unused }
  others : ∀ x, ¬InFwd (Fw.scan before.flash num).trial x → after.flash x = before.flash x
  fdt : after.rram ≠ before.rram ↔
    entryOf before.flash (Fw.scan before.flash num).trial sblImgId ≠ none
  sbl : entryOf before.flash (Fw.scan before.flash num).trial sblImgId ≠ none →
    ∃ i, (findFde before.rram fun i => fdeId before.rram i == fdeIdSbl &&
      fdeRank before.rram i == fdeRankTrial) = some i ∧ FdeRejected before.rram after.rram i

theorem rejectedFlash_outside {num x : Nat} (out : ¬InFwd (scan m num).trial x) :
    rejectedFlash m num x = m x := by
  have status := FwdInfo.in_block .status
  have rank := FwdInfo.in_block .rank
  unfold rejectedFlash
  unfold InFwd blockSize at out
  rw [Nor.program_outside, Nor.program_outside]
  · rw [length_leBytes]
    omega
  · rw [length_leBytes]
    omega

theorem rejectedFdt_ne {i : Nat} (trial : fdeRank m i = fdeRankTrial) : rejectedFdt m i ≠ m := by
  intro same
  have aged := rejectedFdt_rank m i
  rw [same, trial] at aged
  exact absurd aged (by decide)

/-- What is left when the rejection returns OK. -/
theorem rejectTrialFwd_ok (sane : Sane s) (ok : (rejectTrialFwd e s).res = .ok ()) :
    (configured e s = 2 ∨ configured e s = 3) ∧ (scan s.flash (configured e s)).trial ≠ unused ∧
    (rejectTrialFwd e s).state.flash = rejectedFlash s.flash (configured e s) ∧
    ((entryOf s.flash (scan s.flash (configured e s)).trial sblImgId = none ∧
      (rejectTrialFwd e s).state.rram = s.rram) ∨
     (entryOf s.flash (scan s.flash (configured e s)).trial sblImgId ≠ none ∧
      fdtValid s.rram = true ∧ ∃ i, (findFde s.rram fun i => fdeId s.rram i == fdeIdSbl &&
        fdeRank s.rram i == fdeRankTrial) = some i ∧
      (rejectTrialFwd e s).state.rram = rejectedFdt s.rram i)) := by
  obtain ⟨r, t, l, run, spares, ready⟩ := init_cases e sane.ready
  cases r with
  | error err =>
    exfalso
    revert ok
    unfold rejectTrialFwd getTrialActiveFwdIndex
    simp [Act.attempt, run]
  | ok _ =>
    have ready := ready rfl
    have num : configured e s = t.fwdSupportNum := by
      unfold configured
      rw [run]
    obtain ⟨found, a, u, run', reads, hit⟩ := getTrialActiveFwdIndex_cases e ready.init
    have scanned := getTrialActiveFwdIndex_init run ready.init
    rw [run', List.append_nil] at scanned
    rw [num]
    revert ok
    unfold rejectTrialFwd
    simp only [Act.bind_run, scanned, Act.andThen_ok]
    cases found with
    | false => simp
    | true =>
      obtain ⟨rfl, trial⟩ := hit rfl
      have flash : u.flash = s.flash := reads.flash.trans spares.flash
      have rram : u.rram = s.rram := reads.rram.trans spares.rram
      rw [spares.flash] at trial ⊢
      have lt := scanned_lt (scan_trial_mem trial).1
      simp only [if_true, Act.bind_run]
      intro ok
      obtain ⟨_, first, ok, state⟩ := Act.andThen_res_ok ok
      rw [state]
      obtain ⟨v, k, run₁, hv⟩ := setFwdInfo_done first
      rw [run₁] at ok ⊢
      obtain ⟨_, second, ok, state⟩ := Act.andThen_res_ok ok
      rw [Act.bind_run, state]
      obtain ⟨w, k', run₂, hw⟩ := setFwdInfo_done second
      rw [run₂] at ok ⊢
      have flash' : w.flash = rejectedFlash s.flash t.fwdSupportNum := by
        rw [hw, hv, flash]
        rfl
      have rram' : w.rram = s.rram := by rw [hw, hv]; exact rram
      have entries := entryOf_rejectedFlash s.flash t.fwdSupportNum
        (scan s.flash t.fwdSupportNum).trial sblImgId
      rw [← flash'] at entries
      refine ⟨ready.num, trial, ?_⟩
      simp only [Act.bind_run, Act.attempt, Act.andThen_ok] at ok ⊢
      rcases findPartition_cases e (scan s.flash t.fwdSupportNum).trial sblImgId w with
        ⟨err, y, run₃, reads'⟩ | ⟨h, c, y, run₃, reads', -, found⟩
      · have missing : err = .reachMaxImageEntry := by
          rw [run₃] at ok
          revert ok
          cases err <;> simp
        subst missing
        have none := findPartition_missing lt (by rw [run₃])
        rw [run₃]
        refine ⟨reads'.flash.trans flash', .inl ⟨?_, reads'.rram.trans rram'⟩⟩
        rw [← entries]
        exact none
      · rw [run₃] at ok ⊢
        obtain ⟨valid, i, first, left⟩ := rejectSblTrialFde_ok e ok
        have same : (setHandle h c y).rram = s.rram := reads'.rram.trans rram'
        rw [same] at valid first left
        have listed : entryOf s.flash (scan s.flash t.fwdSupportNum).trial sblImgId ≠ none := by
          rw [← entries]
          obtain ⟨-, j, hj, -⟩ := found
          rw [hj]
          simp
        refine ⟨?_, .inr ⟨listed, valid, i, first, ?_⟩⟩
        · simp only
          rw [left]
          exact reads'.flash.trans flash'
        · simp only
          rw [left]

/-- A rejection that returns OK undoes the trial, in the descriptor blocks and in the
descriptor table. -/
theorem rejectTrialFwd_rejects (sane : Sane s) (one : OneTrial s.flash (configured e s))
    (ok : (rejectTrialFwd e s).res = .ok ()) :
    Rejected (configured e s) s (rejectTrialFwd e s).state := by
  obtain ⟨num, found, flash, sbl⟩ := rejectTrialFwd_ok sane ok
  constructor
  · exact found
  · rw [flash]
    exact scan_rejectedFlash num found one
  · intro x out
    rw [flash]
    exact rejectedFlash_outside out
  · rcases sbl with ⟨none, rram⟩ | ⟨listed, -, i, first, rram⟩
    · simp [none, rram]
    · have trial := List.find?_some first
      simp only [Bool.and_eq_true, beq_iff_eq] at trial
      rw [rram]
      exact ⟨fun _ => listed, fun _ => rejectedFdt_ne trial.2⟩
  · intro listed
    rcases sbl with ⟨none, -⟩ | ⟨-, valid, i, first, rram⟩
    · exact absurd none listed
    · have trial := List.find?_some first
      simp only [Bool.and_eq_true, beq_iff_eq] at trial
      have lt := List.mem_range.mp (List.mem_of_find?_eq_some first)
      refine ⟨i, first, ?_⟩
      rw [rram]
      exact ⟨⟨lt, trial.1, trial.2⟩, rejectedFdt_rank _ _, rejectedFdt_state _ _,
        fun x h h' => rejectedFdt_rest _ _ h h', rejectedFdt_selectable valid lt trial.1⟩

/-- FWD 1 is a trial with an SBL image. -/
def sblTrial : St := { loneTrial with
  flash := store (store (fun _ => 0xFF) (fwdAddr 1)
    (leBytes 4 magicV1 ++ leBytes 4 1 ++ leBytes 4 rankTrial ++ [1, 1])) (entryAddr 1 0)
      (entryBytes sblImgId 1 0x210000 0x1000)
  rram := store (store (fun _ => 0) fdtStart (leBytes 4 magicV1 ++ leBytes 4 2)) (fdeAddr 0)
    (leBytes 4 fdeIdSbl ++ leBytes 4 fdeRankCurrent ++ List.replicate 24 0 ++
      leBytes 4 fdeIdSbl ++ leBytes 4 fdeRankTrial) }

theorem sblTrial_rejected :
    Rejected 2 sblTrial (rejectTrialFwd smallEnv sblTrial).state ∧
    (rejectTrialFwd smallEnv sblTrial).state.rram ≠ sblTrial.rram := by
  have sane : Sane sblTrial := ⟨by decide, fun _ => ⟨rfl, .inl rfl⟩⟩
  have num : configured smallEnv sblTrial = 2 := rfl
  have one : OneTrial sblTrial.flash (configured smallEnv sblTrial) := by
    rw [num]
    unfold OneTrial TrialAt scanned
    decide
  have ok : (rejectTrialFwd smallEnv sblTrial).res = .ok () := by rfl
  have rejected := rejectTrialFwd_rejects sane one ok
  rw [num] at rejected
  refine ⟨rejected, rejected.fdt.mpr ?_⟩
  decide

end Qapp.Fw
