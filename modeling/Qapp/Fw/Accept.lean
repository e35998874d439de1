import Qapp.Fw.Scan

/-!
# Accepting the trial firmware

The descriptor blocks `acceptTrialFwd` leaves, and when the promoted firmware is
the current one in them.
-/

namespace Qapp.Fw
open ByteMem Traced

/-- Setting a field programs it, or fails. -/
theorem setFwdInfo_ok {e : Env} {i : Nat} {info : FwdInfo} {v : Nat} {s : St}
    (ok : (setFwdInfo e i info v s).res = .ok ()) :
    i < maxFwd ∧ (setFwdInfo e i info v s).state.flash =
      Nor.program s.flash (fwdAddr i + info.offset) (leBytes info.size v) := by
  obtain ⟨out, t, run, -, ran⟩ := flashWrite_cases e (.info i info) (fwdAddr i + info.offset)
    (leBytes info.size v) s
  revert ok
  unfold setFwdInfo
  simp only [Act.bind_run, validation_run]
  split
  · simp only [Act.andThen_ok, Act.ite_run]
    split
    · simp
    · rename_i hi
      rw [run]
      cases out with
      | done =>
        intro _
        refine ⟨Nat.not_le.mp hi, ?_⟩
        simp only
        rw [ran.eq]
        rfl
      | failed left => intro h; simp [Outcome.res] at h
      | rejected => intro h; simp [Outcome.res] at h
  · simp

theorem setFwdInfo_clean {e : Env} (dev : e.HoldsFwds) {i : Nat} (hi : i < maxFwd)
    (info : FwdInfo) (v : Nat) {s : St} (init : s.fuInitialized = true)
    (clean : s.opFaults = []) :
    setFwdInfo e i info v s = ⟨.ok (), { s with
      flash := Nor.program s.flash (fwdAddr i + info.offset) (leBytes info.size v) },
      [.op (.info i info) (.write (fwdAddr i + info.offset) (leBytes info.size v)) .done]⟩ := by
  have range : fwdAddr i + info.offset + (leBytes info.size v).length ≤ e.memSize := by
    rw [length_leBytes]
    exact dev.field hi info
  unfold setFwdInfo
  simp only [Act.bind_run, validation_run, init, if_true, Act.andThen_ok, Nat.not_le.mpr hi,
    if_false, flashWrite_clean e _ clean range, List.nil_append]

/-- The flash `acceptTrialFwd` leaves. -/
def acceptedFlash (m : Mem) (num : Nat) : Mem :=
  let a := scan m num
  let m' := Nor.program m (fwdAddr a.trial + FwdInfo.offset .rank)
    (leBytes (FwdInfo.size .rank) ((a.rank + 1) % 2 ^ 32))
  if num = 2 ∨ num = 3 ∧ a.current ≠ 0 then
    Nor.program m' (fwdAddr a.current + FwdInfo.offset .status)
      (leBytes (FwdInfo.size .status) statusInvalid)
  else m'

/-- When it returns OK, `acceptTrialFwd` has found a trial and a TRIAL boot type. -/
theorem acceptTrialFwd_ok {e : Env} {garbage : Nat} {s : St} (ready : Ready s)
    (ok : (acceptTrialFwd e garbage s).res = .ok ()) :
    (scan s.flash s.fwdSupportNum).trial ≠ unused ∧
      (getActiveFwd s.rram (some garbage)).2 = some bootTypeTrial ∧
      (acceptTrialFwd e garbage s).state.flash = acceptedFlash s.flash s.fwdSupportNum := by
  obtain ⟨found, a, t, run, reads, ha⟩ := getTrialActiveFwdIndex_cases e ready.init
  unfold acceptTrialFwd at ok ⊢
  simp only [Act.bind_run, run, Act.andThen_ok, List.nil_append] at ok ⊢
  cases found with
  | false => simp at ok
  | true =>
    obtain ⟨rfl, trial⟩ := ha rfl
    simp only [if_true, Act.bind_run, Act.read_run, Act.andThen_ok, List.nil_append, reads.rram,
      reads.num, Act.ite_run] at ok ⊢
    split at ok
    · rename_i boot
      refine ⟨trial, boot, ?_⟩
      simp only [boot, if_true] at ok ⊢
      have first : (setFwdInfo e (scan s.flash s.fwdSupportNum).trial .rank
          (((scan s.flash s.fwdSupportNum).rank + 1) % 2 ^ 32) t).res = .ok () := by
        cases hr : (setFwdInfo e (scan s.flash s.fwdSupportNum).trial .rank
          (((scan s.flash s.fwdSupportNum).rank + 1) % 2 ^ 32) t).res with
        | ok _ => rfl
        | error err =>
          simp only [Out.andThen, hr] at ok
          cases ok
      have hflash := (setFwdInfo_ok first).2
      simp only [Out.andThen, first] at ok ⊢
      unfold acceptedFlash
      rw [reads.flash] at hflash
      split at ok
      · rename_i retire
        simp only [retire, if_true]
        rw [(setFwdInfo_ok ok).2, hflash]
      · rename_i keep
        simp only [keep, if_false, Act.pure_run]
        exact hflash
    · simp at ok

theorem acceptTrialFwd_clean {e : Env} (dev : e.HoldsFwds) {garbage : Nat} {s : St}
    (ready : Ready s) (reads : s.readFaults = []) (ops : s.opFaults = [])
    (trial : (scan s.flash s.fwdSupportNum).trial < maxFwd)
    (current : (scan s.flash s.fwdSupportNum).current < maxFwd)
    (boot : (getActiveFwd s.rram (some garbage)).2 = some bootTypeTrial) :
    (acceptTrialFwd e garbage s).res = .ok () := by
  have found : ((scan s.flash s.fwdSupportNum).trial != unused) = true := by
    rw [bne_iff_ne]
    intro h
    rw [h] at trial
    exact absurd trial (by decide)
  unfold acceptTrialFwd
  simp only [Act.bind_run, getTrialActiveFwdIndex_clean dev ready.init ready.several reads,
    Act.andThen_ok, found, if_true, Act.read_run, boot,
    setFwdInfo_clean dev trial _ _ ready.init ops, Act.ite_run, List.nil_append]
  split
  · rw [setFwdInfo_clean dev current _ _ (by exact ready.init) (by exact ops)]
  · rfl

/-- What accepting is for. `before` and `after` are the states around it. -/
structure Accepted (before after : St) : Prop where
  app : ∃ i, fdtValid before.rram = true ∧
    findFde before.rram (fun i => fdeId before.rram i == fdeIdApp) = some i ∧
    fdeRank before.rram i = fdeRankTrial
  valid : fwdField after.flash (scan before.flash before.fwdSupportNum).trial .status = statusValid
  current : (scan after.flash before.fwdSupportNum).current =
    (scan before.flash before.fwdSupportNum).trial
  rank : ∀ j < before.fwdSupportNum, j ≠ (scan before.flash before.fwdSupportNum).trial →
    RankedAt after.flash j →
    fwdField after.flash j .rank < (scan after.flash before.fwdSupportNum).rank
  others : ∀ j x, j ≠ (scan before.flash before.fwdSupportNum).trial →
    j ≠ (scan before.flash before.fwdSupportNum).current → InFwd j x →
    after.flash x = before.flash x
  golden : before.fwdSupportNum = 3 → ∀ x, InFwd 0 x → after.flash x = before.flash x

/-! ## When it works -/

/-- The table scan finds a trial, and the boot type reads as TRIAL. -/
def Offered (s : St) (garbage : Nat) : Prop :=
  (∃ i ∈ scanned s.fwdSupportNum, TrialAt s.flash i) ∧
    (getActiveFwd s.rram (some garbage)).2 = some bootTypeTrial

/-- The running firmware is the trial. With two firmwares the promoted one is not the
one the scan defaults to, and with three that default is not a trial itself. -/
structure Acceptable (s : St) : Prop where
  app : ∃ i, fdtValid s.rram = true ∧
    findFde s.rram (fun i => fdeId s.rram i == fdeIdApp) = some i ∧
    fdeRank s.rram i = fdeRankTrial
  two : s.fwdSupportNum = 2 →
    TrialAt s.flash 1 ∨ RankedAt s.flash 1 ∧ 0 < fwdField s.flash 1 .rank
  three : s.fwdSupportNum = 3 → fwdField s.flash 0 .rank ≠ rankTrial

theorem scan_current_lt (m : Mem) (num : Nat) : (scan m num).current < maxFwd := by
  rcases (scan_scanned m num).current with ⟨eq, -⟩ | ⟨mem, -⟩
  · have start : (Scan.start m num).current = 0 := by unfold Scan.start; split <;> rfl
    rw [eq, start]
    decide
  · exact scanned_lt mem

theorem scan_trial_mem {m : Mem} {num : Nat} (h : (scan m num).trial ≠ unused) :
    (scan m num).trial ∈ scanned num ∧ TrialAt m (scan m num).trial := by
  rcases (scan_scanned m num).trial with ⟨eq, -⟩ | h'
  · refine absurd ?_ h
    rw [eq]
    unfold Scan.start
    split <;> rfl
  · exact h'

/-- A rank is that of a trial, or the next ranks do not wrap. -/
def SmallRanks (m : Mem) : Prop :=
  ∀ i < maxFwd, fwdField m i .rank = rankTrial ∨ fwdField m i .rank < 0xFFFFFFFE

theorem scan_rank_lt {m : Mem} {num : Nat} (small : SmallRanks m)
    (start : (Scan.start m num).rank < 0xFFFFFFFE) : (scan m num).rank < 0xFFFFFFFE := by
  rcases (scan_scanned m num).current with ⟨-, eq⟩ | ⟨mem, ranked, eq, -⟩
  · rw [eq]; exact start
  · rw [eq]
    exact (small _ (scanned_lt mem)).resolve_left ranked.2

section promoted
variable {m : Mem} {num : Nat}

/-- The rank `acceptTrialFwd` gives the trial is the one it computed. -/
theorem acceptedFlash_rank (found : (scan m num).trial ≠ unused)
    (start : (Scan.start m num).rank < 0xFFFFFFFE) (small : SmallRanks m) :
    fwdField (acceptedFlash m num) (scan m num).trial .rank = (scan m num).rank + 1 := by
  have trial := (scan_trial_mem found).2
  have lt := scan_rank_lt small start
  have blank : fwdField m (scan m num).trial .rank + 1 = 256 ^ FwdInfo.size .rank := by
    rw [trial.2]
    rfl
  have written := fwdField_program_blank (v := ((scan m num).rank + 1) % 2 ^ 32) blank
    (by simp only [FwdInfo.size]; omega)
  unfold acceptedFlash
  simp only
  split
  · rw [fwdField_program_ne _ _ (.inr (by decide)), written]
    omega
  · rw [written]
    omega

/-- Fields other than the promoted rank and the retired status stay. -/
theorem acceptedFlash_field {i : Nat} {info : FwdInfo}
    (rank : i ≠ (scan m num).trial ∨ info ≠ .rank)
    (status : i ≠ (scan m num).current ∨ info ≠ .status) :
    fwdField (acceptedFlash m num) i info = fwdField m i info := by
  unfold acceptedFlash
  simp only
  split
  · rw [fwdField_program_ne _ _ status, fwdField_program_ne _ _ rank]
  · exact fwdField_program_ne _ _ rank

theorem acceptedFlash_other {i x : Nat} (trial : i ≠ (scan m num).trial)
    (current : i ≠ (scan m num).current ∨ num = 3 ∧ (scan m num).current = 0) (hx : InFwd i x) :
    acceptedFlash m num x = m x := by
  unfold acceptedFlash
  split
  · rename_i retire
    have ne : i ≠ (scan m num).current := by
      rcases current with h | ⟨rfl, h⟩
      · exact h
      · rcases retire with h' | h'
        · cases h'
        · exact absurd h h'.2
    rw [program_other_block _ _ _ ne hx, program_other_block _ _ _ trial hx]
  · exact program_other_block _ _ _ trial hx

/-- The retired firmware is no longer bootable. -/
theorem acceptedFlash_retired (retire : num = 2 ∨ num = 3 ∧ (scan m num).current ≠ 0) :
    fwdField (acceptedFlash m num) (scan m num).current .status = statusInvalid := by
  unfold acceptedFlash
  rw [if_pos retire]
  exact fwdField_program_invalid _ _

theorem acceptedFlash_promoted_bootable (found : (scan m num).trial ≠ unused)
    (ne : (scan m num).current ≠ (scan m num).trial) :
    bootableAt (acceptedFlash m num) (scan m num).trial = true := by
  have h := (scan_trial_mem found).2.1
  unfold bootableAt at h ⊢
  rw [acceptedFlash_field (.inr (by decide)) (.inr (by decide)),
    acceptedFlash_field (.inr (by decide)) (.inl ne.symm),
    acceptedFlash_field (.inr (by decide)) (.inr (by decide))]
  exact h

/-- Another table that is bootable afterwards was so before, with the same rank. -/
theorem acceptedFlash_ranked {i : Nat} (trial : i ≠ (scan m num).trial)
    (h : RankedAt (acceptedFlash m num) i) :
    RankedAt m i ∧ fwdField (acceptedFlash m num) i .rank = fwdField m i .rank := by
  have rank : fwdField (acceptedFlash m num) i .rank = fwdField m i .rank :=
    acceptedFlash_field (.inl trial) (.inr (by decide))
  obtain ⟨boot, ne⟩ := h
  refine ⟨⟨?_, by rw [← rank]; exact ne⟩, rank⟩
  have valid := bootableAt_status boot
  have magic : fwdField (acceptedFlash m num) i .magic = fwdField m i .magic :=
    acceptedFlash_field (.inl trial) (.inr (by decide))
  have count : fwdField (acceptedFlash m num) i .totalImage = fwdField m i .totalImage :=
    acceptedFlash_field (.inl trial) (.inr (by decide))
  unfold bootableAt at boot ⊢
  rw [magic, count] at boot
  by_cases same : fwdField (acceptedFlash m num) i .status = fwdField m i .status
  · rw [← same]; exact boot
  · have : i = (scan m num).current := by
      by_contra ne
      exact same (acceptedFlash_field (.inl trial) (.inl ne))
    subst this
    have retired : num = 2 ∨ num = 3 ∧ (scan m num).current ≠ 0 := by
      by_contra keep
      refine same ?_
      unfold acceptedFlash
      simp only
      rw [if_neg keep]
      exact fwdField_program_ne _ _ (.inl trial)
    rw [acceptedFlash_retired retired] at valid
    exact absurd valid (by decide)

end promoted

/-- Where the default of the scan is not the trial, the promoted firmware becomes the
current one. -/
theorem acceptedFlash_current {m : Mem} {num : Nat} (found : (scan m num).trial ≠ unused)
    (small : SmallRanks m) (start : (Scan.start m num).rank < 0xFFFFFFFE)
    (ne : (scan m num).current ≠ (scan m num).trial)
    (fixed : (Scan.start (acceptedFlash m num) num).rank = (Scan.start m num).rank) :
    (scan (acceptedFlash m num) num).current = (scan m num).trial ∧
      (scan (acceptedFlash m num) num).rank = (scan m num).rank + 1 := by
  have before := scan_scanned m num
  have after := scan_scanned (acceptedFlash m num) num
  have rank := acceptedFlash_rank found start small
  have lt := scan_rank_lt small start
  have ranked : RankedAt (acceptedFlash m num) (scan m num).trial := by
    refine ⟨acceptedFlash_promoted_bootable found ne, ?_⟩
    rw [rank]
    unfold rankTrial
    omega
  have max := after.max _ (scan_trial_mem found).1 ranked
  rw [rank] at max
  have le := before.le
  rcases after.current with ⟨-, eq⟩ | ⟨mem, ranked', eq, -⟩
  · omega
  · by_cases same : (scan (acceptedFlash m num) num).current = (scan m num).trial
    · rw [same] at eq
      exact ⟨same, by omega⟩
    · obtain ⟨was, rank'⟩ := acceptedFlash_ranked same ranked'
      have := before.max _ mem was
      omega

/-- With two firmwares the table retired is the promoted one when the other one has no
rank above 0. -/
theorem current_ne_trial_two {m : Mem} (found : (scan m 2).trial ≠ unused) :
    (scan m 2).current ≠ (scan m 2).trial ↔
      TrialAt m 1 ∨ RankedAt m 1 ∧ 0 < fwdField m 1 .rank := by
  obtain ⟨mem, trial⟩ := scan_trial_mem found
  have h := scan_scanned m 2
  constructor
  · intro ne
    by_contra no
    have zero : (scan m 2).trial = 0 := by
      rcases List.mem_cons.mp mem with h0 | h1
      · exact h0
      · rw [List.mem_singleton.mp h1] at trial
        exact absurd (.inl trial) no
    rcases h.current with ⟨default, -⟩ | ⟨mem', ranked, rank, above⟩
    · exact ne (default.trans zero.symm)
    · rcases List.mem_cons.mp mem' with h0 | h1
      · exact ne (h0.trans zero.symm)
      · have one := List.mem_singleton.mp h1
        rw [one] at ranked rank
        exact no (.inr ⟨ranked, by omega⟩)
  · intro other eq
    rcases other with one | ⟨ranked, above⟩
    · have last : (scan m 2).trial = 1 := by
        have : scan m 2 = Scan.at m (Scan.at m (Scan.start m 2) 0) 1 := rfl
        rw [this, Scan.at_trial one]
      rcases h.current with ⟨default, -⟩ | ⟨-, ranked, -⟩
      · rw [eq, last] at default
        cases default
      · rw [eq] at ranked
        exact trial.not_ranked ranked
    · rcases h.current with ⟨-, rank⟩ | ⟨-, ranked', -⟩
      · have := h.max 1 (by decide) ranked
        have start : (Scan.start m 2).rank = 0 := rfl
        omega
      · rw [eq] at ranked'
        exact trial.not_ranked ranked'

/-- With three firmwares the golden one is never the trial. -/
theorem trial_ne_zero_three {m : Mem} (found : (scan m 3).trial ≠ unused) :
    (scan m 3).trial ≠ 0 := by
  intro zero
  have mem := (scan_trial_mem found).1
  rw [zero] at mem
  exact absurd mem (by decide)

theorem current_ne_trial_three {m : Mem} (found : (scan m 3).trial ≠ unused) :
    (scan m 3).current ≠ (scan m 3).trial := by
  intro eq
  rcases (scan_scanned m 3).current with ⟨default, -⟩ | ⟨-, ranked, -⟩
  · exact trial_ne_zero_three found (eq.symm.trans default)
  · rw [eq] at ranked
    exact (scan_trial_mem found).2.not_ranked ranked

/-- The golden block is not written. -/
theorem acceptedFlash_golden {m : Mem} (found : (scan m 3).trial ≠ unused) {x : Nat}
    (hx : InFwd 0 x) : acceptedFlash m 3 x = m x := by
  refine acceptedFlash_other (trial_ne_zero_three found).symm ?_ hx
  by_cases zero : (scan m 3).current = 0
  · exact .inr ⟨rfl, zero⟩
  · exact .inl (Ne.symm zero)

/-- The state with other faults to come. -/
def St.withFaults (s : St) (reads ops : List (Option Mem)) : St :=
  { s with readFaults := reads, opFaults := ops }

theorem acceptedFlash_start {m : Mem} {num : Nat} (two_or_three : num = 2 ∨ num = 3)
    (found : (scan m num).trial ≠ unused) :
    (Scan.start (acceptedFlash m num) num).rank = (Scan.start m num).rank := by
  rcases two_or_three with rfl | rfl
  · simp only [Scan.start_two]
  · simp only [Scan.start_three]
    exact fwdField_congr_block (fun x hx => acceptedFlash_golden found hx) .rank

/-- A rank that is no higher than the scan's belongs to every ordinary table. -/
theorem rank_le_scan {m : Mem} {num j : Nat} (two_or_three : num = 2 ∨ num = 3) (hj : j < num)
    (ranked : RankedAt m j) : fwdField m j .rank ≤ (scan m num).rank := by
  have h := scan_scanned m num
  rcases two_or_three with rfl | rfl
  · refine h.max j ?_ ranked
    have : j = 0 ∨ j = 1 := by omega
    rcases this with rfl | rfl <;> decide
  · rcases (by omega : j = 0 ∨ j = 1 ∨ j = 2) with rfl | rfl | rfl
    · -- the golden one is not visited, the scan starts from its rank
      have le := h.le
      rw [Scan.start_three] at le
      exact le
    · exact h.max 1 (by decide) ranked
    · exact h.max 2 (by decide) ranked

theorem accepted_of_acceptable {s t : St} (ready : Ready s) (small : SmallRanks s.flash)
    (found : (scan s.flash s.fwdSupportNum).trial ≠ unused) (h : Acceptable s)
    (left : t.flash = acceptedFlash s.flash s.fwdSupportNum) : Accepted s t := by
  obtain ⟨mem, trial⟩ := scan_trial_mem found
  have ne : (scan s.flash s.fwdSupportNum).current ≠ (scan s.flash s.fwdSupportNum).trial := by
    rcases ready.num with num | num
    · rw [num] at found ⊢
      exact (current_ne_trial_two found).mpr (h.two num)
    · rw [num] at found ⊢
      exact current_ne_trial_three found
  have start : (Scan.start s.flash s.fwdSupportNum).rank < 0xFFFFFFFE := by
    rcases ready.num with num | num
    · rw [num, Scan.start_two]
      exact Nat.zero_lt_succ _
    · rw [num, Scan.start_three]
      exact (small 0 (by decide)).resolve_left (h.three num)
  have golden : s.fwdSupportNum = 3 → ∀ x, InFwd 0 x → t.flash x = s.flash x := by
    intro num x hx
    rw [left, num]
    rw [num] at found
    exact acceptedFlash_golden found hx
  have fixed := acceptedFlash_start ready.num found
  obtain ⟨current, rank⟩ := acceptedFlash_current found small start ne fixed
  constructor
  case app => exact h.app
  case valid =>
    rw [left]
    exact bootableAt_status (acceptedFlash_promoted_bootable found ne)
  case current => rw [left]; exact current
  case rank =>
    intro j hj other ranked
    rw [left] at ranked ⊢
    obtain ⟨was, eq⟩ := acceptedFlash_ranked other ranked
    rw [eq, rank]
    have bound := rank_le_scan ready.num hj was
    omega
  case others =>
    intro j x hj hc hx
    rw [left]
    exact acceptedFlash_other hj (.inl hc) hx
  case golden => exact golden

theorem acceptable_of_accepted {s t : St}
    (found : (scan s.flash s.fwdSupportNum).trial ≠ unused)
    (left : t.flash = acceptedFlash s.flash s.fwdSupportNum) (h : Accepted s t) :
    Acceptable s := by
  refine ⟨h.app, ?_, ?_⟩
  · intro num
    have valid := h.valid
    rw [left, num] at valid
    rw [num] at found
    refine (current_ne_trial_two found).mp fun eq => ?_
    have retired := @acceptedFlash_retired s.flash 2 (.inl rfl)
    rw [eq, valid] at retired
    exact absurd retired (by decide)
  · intro num golden
    have current := h.current
    rw [left, num] at current
    rw [num] at found
    have same := acceptedFlash_start (.inr rfl) found
    rw [Scan.start_three s.flash] at same
    simp only [golden] at same
    have nonzero := trial_ne_zero_three found
    rcases (scan_scanned (acceptedFlash s.flash 3) 3).current with ⟨default, -⟩ | ⟨-, -, rank, above⟩
    · exact nonzero (current.symm.trans default)
    · have lt := leNat_lt (load (acceptedFlash s.flash 3)
        (fwdAddr (scan (acceptedFlash s.flash 3) 3).current + FwdInfo.offset .rank)
        (FwdInfo.size .rank))
      rw [length_load] at lt
      have : fwdField (acceptedFlash s.flash 3) (scan (acceptedFlash s.flash 3) 3).current .rank <
          256 ^ FwdInfo.size .rank := lt
      simp only [FwdInfo.size] at this
      unfold rankTrial at same
      omega

/-- Accepting does what it is for exactly in the acceptable states. -/
theorem acceptTrialFwd_accepted_iff {e : Env} (dev : e.HoldsFwds) {s : St} (ready : Ready s)
    (small : SmallRanks s.flash) (garbage : Nat) :
    (∀ reads ops, (acceptTrialFwd e garbage (s.withFaults reads ops)).res = .ok () →
      Accepted s (acceptTrialFwd e garbage (s.withFaults reads ops)).state) ↔
    (Offered s garbage → Acceptable s) := by
  constructor
  · rintro h ⟨trial, boot⟩
    have found := scan_trial_ne.mpr trial
    have clean : Ready (s.withFaults [] []) := ⟨ready.init, ready.num⟩
    have ok := acceptTrialFwd_clean (s := s.withFaults [] []) dev clean rfl rfl
      (scanned_lt (scan_trial_mem found).1) (scan_current_lt _ _) boot
    exact acceptable_of_accepted found (acceptTrialFwd_ok clean ok).2.2 (h [] [] ok)
  · intro h reads ops ok
    have ready' : Ready (s.withFaults reads ops) := ⟨ready.init, ready.num⟩
    obtain ⟨found, boot, left⟩ := acceptTrialFwd_ok ready' ok
    exact accepted_of_acceptable ready small found (h ⟨scan_trial_ne.mp found, boot⟩) left

/-! ## A lone trial -/

/-- A device of 600 blocks. -/
def smallEnv : Env where
  blocks := 600
  blocks_lt := by decide
  sha := fun _ => []
  junk := fun _ => 0

/-- FWD 0 is the running trial, FWD 1 is erased. -/
def loneTrial : St where
  flash := store (fun _ => 0xFF) 0 (leBytes 4 magicV1 ++ leBytes 4 1 ++ leBytes 4 rankTrial ++ [1, 1])
  rram := store (store (fun _ => 0) fdtStart (leBytes 4 magicV1 ++ leBytes 4 1)) (fdeAddr 0)
    (leBytes 4 fdeIdApp ++ leBytes 4 fdeRankTrial)
  readFaults := []
  opFaults := []
  oom := []
  handles := fun _ => ⟨0, 0, 0, 0, 0, 0, 0⟩
  memParams := true
  fuInitialized := true
  fwdSupportNum := 2
  cxt := none
  imageHdr := none

theorem loneTrial_ready : Ready loneTrial := ⟨rfl, .inl rfl⟩

theorem loneTrial_small : SmallRanks loneTrial.flash := by
  unfold SmallRanks
  decide

/-- The table the promotion defaults to is the promoted one, so it is retired at once. -/
theorem loneTrial_not_accepted : Ready loneTrial ∧ SmallRanks loneTrial.flash ∧
    (acceptTrialFwd smallEnv 0 loneTrial).res = .ok () ∧
    ¬Accepted loneTrial (acceptTrialFwd smallEnv 0 loneTrial).state := by
  have found : (scan loneTrial.flash loneTrial.fwdSupportNum).trial ≠ unused := by decide
  have ok : (acceptTrialFwd smallEnv 0 loneTrial).res = .ok () :=
    acceptTrialFwd_clean (by unfold Env.HoldsFwds; decide) loneTrial_ready rfl rfl
      (scanned_lt (scan_trial_mem found).1) (scan_current_lt _ _) (by decide)
  refine ⟨loneTrial_ready, loneTrial_small, ok, fun accepted => ?_⟩
  have left := (acceptTrialFwd_ok loneTrial_ready ok).2.2
  rcases (acceptable_of_accepted found left accepted).two rfl with trial | ranked
  · exact absurd trial.1 (by decide)
  · exact absurd ranked.1.1 (by decide)

/-- FWD 0 is the running trial, FWD 1 the firmware before it. -/
def pairTrial : St := { loneTrial with
  flash := store loneTrial.flash (fwdAddr 1) (leBytes 4 magicV1 ++ leBytes 4 1 ++ leBytes 4 7 ++ [1, 1]) }

/-- The trial is promoted over the firmware before it. -/
theorem pairTrial_accepted : Offered pairTrial 0 ∧
    (acceptTrialFwd smallEnv 0 pairTrial).res = .ok () ∧
    Accepted pairTrial (acceptTrialFwd smallEnv 0 pairTrial).state := by
  have dev : smallEnv.HoldsFwds := by
    unfold Env.HoldsFwds
    decide
  have ready : Ready pairTrial := ⟨rfl, .inl rfl⟩
  have small : SmallRanks pairTrial.flash := by
    unfold SmallRanks
    decide
  have found : (scan pairTrial.flash pairTrial.fwdSupportNum).trial ≠ unused := by decide
  have boot : (getActiveFwd pairTrial.rram (some 0)).2 = some bootTypeTrial := by decide
  have ok : (acceptTrialFwd smallEnv 0 pairTrial).res = .ok () :=
    acceptTrialFwd_clean dev ready rfl rfl (scanned_lt (scan_trial_mem found).1)
      (scan_current_lt _ _) boot
  have acceptable : Acceptable pairTrial := by
    refine ⟨⟨0, by decide, by decide, by decide⟩, fun _ => .inr ?_, nofun⟩
    unfold RankedAt
    decide
  refine ⟨⟨scan_trial_ne.mp found, boot⟩, ok, ?_⟩
  exact (acceptTrialFwd_accepted_iff dev ready small 0).mpr (fun _ => acceptable) [] [] ok

end Qapp.Fw
