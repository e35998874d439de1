import Qapp.Fw.Fields
import Qapp.Fw.Device

/-!
# What the table scan finds

Reads change nothing but the list of faults to come, so a scan that returns is a
function of the flash.
-/

namespace Qapp.Fw
open ByteMem Traced

/-- The pass of the scan over table `i` as flash has it. -/
def Scan.at (m : Mem) (a : Scan) (i : Nat) : Scan :=
  a.visit i (fwdField m i .magic) (fwdField m i .rank) (fwdField m i .status)
    (fwdField m i .totalImage)

/-- The tables the scan visits. -/
def scanned (num : Nat) : List Nat := if num = 2 then [0, 1] else [1, 2]

def Scan.start (m : Mem) (num : Nat) : Scan :=
  if num = 2 then ⟨unused, 0, 0⟩ else ⟨unused, 0, fwdField m 0 .rank⟩

theorem Scan.start_two (m : Mem) : Scan.start m 2 = ⟨unused, 0, 0⟩ := rfl

theorem Scan.start_three (m : Mem) : Scan.start m 3 = ⟨unused, 0, fwdField m 0 .rank⟩ := rfl

/-- What `getTrialActiveFwdIndex` reports when no read fails. -/
def scan (m : Mem) (num : Nat) : Scan := (scanned num).foldl (Scan.at m) (Scan.start m num)

theorem scanned_lt {num i : Nat} (h : i ∈ scanned num) : i < maxFwd := by
  unfold scanned at h
  split at h <;> revert i <;> decide

/-- A bootable table that waits for being accepted. -/
def TrialAt (m : Mem) (i : Nat) : Prop :=
  bootableAt m i = true ∧ fwdField m i .rank = rankTrial

/-- A bootable table with an ordinary rank. -/
def RankedAt (m : Mem) (i : Nat) : Prop :=
  bootableAt m i = true ∧ fwdField m i .rank ≠ rankTrial

theorem TrialAt.not_ranked {m : Mem} {i : Nat} (h : TrialAt m i) : ¬RankedAt m i :=
  fun hr => hr.2 h.2

theorem Scan.at_trial {m : Mem} {i : Nat} (h : TrialAt m i) (a : Scan) :
    Scan.at m a i = { a with trial := i } := by
  have hb := h.1
  unfold bootableAt at hb
  unfold Scan.at Scan.visit
  rw [if_pos hb, if_pos h.2]

theorem Scan.at_ranked {m : Mem} {i : Nat} (h : RankedAt m i) (a : Scan) :
    Scan.at m a i = if a.rank < fwdField m i .rank then
      { a with rank := fwdField m i .rank, current := i } else a := by
  have hb := h.1
  unfold bootableAt at hb
  unfold Scan.at Scan.visit
  rw [if_pos hb, if_neg h.2]

theorem Scan.at_other {m : Mem} {i : Nat} (h : bootableAt m i = false) (a : Scan) :
    Scan.at m a i = a := by
  unfold bootableAt at h
  unfold Scan.at Scan.visit
  rw [h]
  rfl

theorem table_cases (m : Mem) (i : Nat) : TrialAt m i ∨ RankedAt m i ∨ bootableAt m i = false := by
  unfold TrialAt RankedAt
  cases bootableAt m i <;> by_cases fwdField m i .rank = rankTrial <;> simp_all

/-- What the visits of a list of tables make of the outputs `a`. -/
structure Scanned (m : Mem) (is : List Nat) (a b : Scan) : Prop where
  trial : b.trial = a.trial ∧ (∀ i ∈ is, ¬TrialAt m i) ∨ b.trial ∈ is ∧ TrialAt m b.trial
  le : a.rank ≤ b.rank
  max : ∀ i ∈ is, RankedAt m i → fwdField m i .rank ≤ b.rank
  current : b.current = a.current ∧ b.rank = a.rank ∨
    b.current ∈ is ∧ RankedAt m b.current ∧ b.rank = fwdField m b.current .rank ∧ a.rank < b.rank

theorem Scanned.skip {m : Mem} {is : List Nat} {a b : Scan} (h : Scanned m is a b) {i : Nat}
    (hi : ¬TrialAt m i) (low : RankedAt m i → fwdField m i .rank ≤ a.rank) :
    Scanned m (i :: is) a b where
  trial := by
    rcases h.trial with ⟨eq, none⟩ | ⟨mem, trial⟩
    · refine .inl ⟨eq, ?_⟩
      intro j hj
      cases hj with
      | head => exact hi
      | tail _ hj => exact none j hj
    · exact .inr ⟨List.mem_cons_of_mem _ mem, trial⟩
  le := h.le
  max := by
    intro j hj ranked
    cases hj with
    | head => exact Nat.le_trans (low ranked) h.le
    | tail _ hj => exact h.max j hj ranked
  current := by
    rcases h.current with eq | ⟨mem, rest⟩
    · exact .inl eq
    · exact .inr ⟨List.mem_cons_of_mem _ mem, rest⟩

theorem foldl_scanned (m : Mem) (is : List Nat) (a : Scan) :
    Scanned m is a (is.foldl (Scan.at m) a) := by
  induction is generalizing a with
  | nil => exact ⟨.inl ⟨rfl, by simp⟩, Nat.le_refl _, by simp, .inl ⟨rfl, rfl⟩⟩
  | cons i is ih =>
    rw [List.foldl_cons]
    rcases table_cases m i with ht | hr | hn
    · have h := ih { a with trial := i }
      rw [Scan.at_trial ht]
      refine ⟨.inr ?_, h.le, ?_, ?_⟩
      · rcases h.trial with ⟨eq, -⟩ | ⟨mem, trial⟩
        · rw [eq]; exact ⟨List.mem_cons_self .., ht⟩
        · exact ⟨List.mem_cons_of_mem _ mem, trial⟩
      · intro j hj ranked
        cases hj with
        | head => exact absurd ranked ht.not_ranked
        | tail _ hj => exact h.max j hj ranked
      · rcases h.current with eq | ⟨mem, rest⟩
        · exact .inl eq
        · exact .inr ⟨List.mem_cons_of_mem _ mem, rest⟩
    · rw [Scan.at_ranked hr]
      by_cases higher : a.rank < fwdField m i .rank
      · rw [if_pos higher]
        have h := ih { a with rank := fwdField m i .rank, current := i }
        have hle := h.le
        simp only at hle
        refine ⟨?_, by omega, ?_, .inr ?_⟩
        · rcases h.trial with ⟨eq, none⟩ | ⟨mem, trial⟩
          · refine .inl ⟨eq, ?_⟩
            intro j hj
            cases hj with
            | head => exact fun ht => ht.not_ranked hr
            | tail _ hj => exact none j hj
          · exact .inr ⟨List.mem_cons_of_mem _ mem, trial⟩
        · intro j hj ranked
          cases hj with
          | head => exact hle
          | tail _ hj => exact h.max j hj ranked
        · rcases h.current with ⟨hc, hk⟩ | ⟨mem, ranked, hk, hlt⟩
          · simp only at hc hk
            rw [hc, hk]
            exact ⟨List.mem_cons_self .., hr, rfl, higher⟩
          · simp only at hlt
            exact ⟨List.mem_cons_of_mem _ mem, ranked, hk, by omega⟩
      · rw [if_neg higher]
        exact (ih a).skip (fun ht => ht.not_ranked hr) fun _ => by omega
    · rw [Scan.at_other hn]
      refine (ih a).skip ?_ ?_
      · intro ht; rw [ht.1] at hn; cases hn
      · intro hr; rw [hr.1] at hn; cases hn

theorem scan_scanned (m : Mem) (num : Nat) :
    Scanned m (scanned num) (Scan.start m num) (scan m num) := foldl_scanned _ _ _

theorem scan_trial_ne {m : Mem} {num : Nat} :
    (scan m num).trial ≠ unused ↔ ∃ i ∈ scanned num, TrialAt m i := by
  have start : (Scan.start m num).trial = unused := by unfold Scan.start; split <;> rfl
  rcases (scan_scanned m num).trial with ⟨eq, none⟩ | ⟨mem, trial⟩
  · constructor
    · intro h; exact absurd (eq.trans start) h
    · rintro ⟨i, hi, ht⟩; exact absurd ht (none i hi)
  · refine ⟨fun _ => ⟨_, mem, trial⟩, fun _ => ?_⟩
    have := scanned_lt mem
    unfold maxFwd at this
    unfold unused
    omega

/-- A device with room for the descriptor blocks. -/
def Env.HoldsFwds (e : Env) : Prop := maxFwd ≤ e.blocks

theorem Env.HoldsFwds.field {e : Env} (h : e.HoldsFwds) {i : Nat} (hi : i < maxFwd)
    (info : FwdInfo) : fwdAddr i + info.offset + info.size ≤ e.memSize := by
  have := info.in_block
  unfold Env.HoldsFwds maxFwd at *
  unfold fwdAddr Env.memSize blockSize
  omega

theorem getFwdInfo_cases (e : Env) (i : Nat) (info : FwdInfo) (old : Nat) (s : St) :
    ∃ ok v t, getFwdInfo e i info old s = ⟨.ok (ok, v), t, []⟩ ∧ Reads s t ∧
      (ok = true → v = fwdField s.flash i info ∧ s.fuInitialized = true ∧ i < maxFwd) := by
  unfold getFwdInfo
  simp only [Act.bind_run, Act.read_run, Act.andThen_ok, Act.ite_run]
  split
  · rename_i h
    simp only [Bool.and_eq_true, decide_eq_true_eq] at h
    obtain ⟨ok, m, t, run, reads, hm⟩ := flashRead_cases e (fwdAddr i + info.offset) info.size s
    simp only [run, Act.andThen_ok, Act.pure_run, List.nil_append]
    refine ⟨ok, _, t, rfl, reads, fun hok => ⟨?_, h⟩⟩
    rw [hm hok]
  · exact ⟨false, old, s, rfl, .refl s, by simp⟩

theorem getFwdInfo_clean {e : Env} (dev : e.HoldsFwds) {i : Nat} (hi : i < maxFwd)
    (info : FwdInfo) (old : Nat) {s : St} (init : s.fuInitialized = true)
    (clean : s.readFaults = []) :
    getFwdInfo e i info old s = ⟨.ok (true, fwdField s.flash i info), s, []⟩ := by
  unfold getFwdInfo
  simp only [Act.bind_run, Act.read_run, Act.andThen_ok, init, hi, decide_true, Bool.and_self,
    if_true, flashRead_clean e clean (dev.field hi info), Act.pure_run, List.nil_append]

theorem scanLoop_cases (e : Env) (is : List Nat) (a : Scan) (s : St) :
    ∃ ok b t, scanLoop e is a s = ⟨.ok (ok, b), t, []⟩ ∧ Reads s t ∧
      (ok = true → b = is.foldl (Scan.at s.flash) a) := by
  induction is generalizing a s with
  | nil => exact ⟨true, a, s, rfl, .refl s, fun _ => rfl⟩
  | cons i is ih =>
    unfold scanLoop
    obtain ⟨ok₁, magic, s₁, run₁, r₁, h₁⟩ := getFwdInfo_cases e i .magic 0 s
    simp only [Act.bind_run, run₁, Act.andThen_ok, List.nil_append, Act.ite_run]
    cases ok₁ with
    | false => exact ⟨false, a, s₁, rfl, r₁, by simp⟩
    | true =>
    obtain ⟨ok₂, rank, s₂, run₂, r₂, h₂⟩ := getFwdInfo_cases e i .rank 0 s₁
    simp only [Act.bind_run, run₂, Act.andThen_ok, List.nil_append, Act.ite_run, Bool.not_true,
      Bool.false_eq_true, if_false]
    cases ok₂ with
    | false => exact ⟨false, a, s₂, rfl, r₁.trans r₂, by simp⟩
    | true =>
    obtain ⟨ok₃, status, s₃, run₃, r₃, h₃⟩ := getFwdInfo_cases e i .status 0 s₂
    simp only [Act.bind_run, run₃, Act.andThen_ok, List.nil_append, Act.ite_run, Bool.not_true,
      Bool.false_eq_true, if_false]
    cases ok₃ with
    | false => exact ⟨false, a, s₃, rfl, (r₁.trans r₂).trans r₃, by simp⟩
    | true =>
    obtain ⟨ok₄, nums, s₄, run₄, r₄, h₄⟩ := getFwdInfo_cases e i .totalImage 0 s₃
    simp only [run₄, Act.andThen_ok, List.nil_append, Act.ite_run, Bool.not_true,
      Bool.false_eq_true, if_false]
    cases ok₄ with
    | false => exact ⟨false, a, s₄, rfl, ((r₁.trans r₂).trans r₃).trans r₄, by simp⟩
    | true =>
    obtain ⟨ok, b, t, run, r, h⟩ := ih (a.visit i magic rank status nums) s₄
    have reads := ((r₁.trans r₂).trans r₃).trans r₄
    refine ⟨ok, b, t, run, reads.trans r, fun hok => ?_⟩
    rw [h hok, reads.flash, (h₁ rfl).1, (h₂ rfl).1, (h₃ rfl).1, (h₄ rfl).1, r₁.flash,
      (r₁.trans r₂).flash, ((r₁.trans r₂).trans r₃).flash]
    rfl

theorem scanLoop_clean {e : Env} (dev : e.HoldsFwds) {is : List Nat} (his : ∀ i ∈ is, i < maxFwd)
    (a : Scan) {s : St} (init : s.fuInitialized = true) (clean : s.readFaults = []) :
    scanLoop e is a s = ⟨.ok (true, is.foldl (Scan.at s.flash) a), s, []⟩ := by
  induction is generalizing a with
  | nil => rfl
  | cons i is ih =>
    have hi := his i (List.mem_cons_self ..)
    unfold scanLoop
    simp only [Act.bind_run, getFwdInfo_clean dev hi _ _ init clean, Act.andThen_ok,
      Bool.not_true, Bool.false_eq_true, if_false, List.nil_append]
    rw [ih fun j hj => his j (List.mem_cons_of_mem _ hj)]
    rfl

theorem init_ready {e : Env} {s : St} (ready : s.fuInitialized = true) :
    init e s = ⟨.ok (), s, []⟩ := by
  unfold init
  simp only [Act.bind_run, Act.read_run, Act.andThen_ok, ready, if_true, Act.pure_run,
    List.nil_append]

/-- The module is initialized for two or three firmwares. -/
structure Ready (s : St) : Prop where
  init : s.fuInitialized = true
  num : s.fwdSupportNum = 2 ∨ s.fwdSupportNum = 3

theorem Ready.several {s : St} (ready : Ready s) : s.fwdSupportNum ≠ 1 := by
  have := ready.num
  omega

theorem Reads.ready {s t : St} (h : Reads s t) (ready : Ready s) : Ready t :=
  ⟨by rw [h.init]; exact ready.init, by rw [h.num]; exact ready.num⟩

/-- A scan that succeeds reports what the flash has. -/
theorem getTrialActiveFwdIndex_cases (e : Env) {s : St} (init : s.fuInitialized = true) :
    ∃ ok a t, getTrialActiveFwdIndex e s = ⟨.ok (ok, a), t, []⟩ ∧ Reads s t ∧
      (ok = true → a = scan s.flash s.fwdSupportNum ∧ a.trial ≠ unused) := by
  unfold getTrialActiveFwdIndex
  simp only [Act.bind_run, Act.attempt, init_ready init, Act.andThen_ok, List.nil_append,
    Act.read_run, Act.ite_run]
  by_cases one : s.fwdSupportNum = 1
  · rw [if_pos one]
    exact ⟨false, _, s, rfl, .refl s, by simp⟩
  rw [if_neg one]
  by_cases two : s.fwdSupportNum = 2
  · obtain ⟨ok, b, t, run, reads, h⟩ := scanLoop_cases e [0, 1] ⟨unused, 0, 0⟩ s
    simp only [two, if_true, run, Act.andThen_ok, Act.pure_run, List.nil_append]
    refine ⟨_, b, t, rfl, reads, fun hok => ?_⟩
    rw [Bool.and_eq_true] at hok
    exact ⟨h hok.1, by simpa using hok.2⟩
  · obtain ⟨ok₀, rank, t₀, run₀, reads₀, h₀⟩ := getFwdInfo_cases e 0 .rank 0 s
    simp only [if_neg two, Act.bind_run, run₀, Act.andThen_ok, List.nil_append, Act.ite_run]
    cases ok₀ with
    | false => exact ⟨false, _, t₀, rfl, reads₀, by simp⟩
    | true =>
      obtain ⟨ok, b, t, run, reads, h⟩ := scanLoop_cases e [1, 2] ⟨unused, 0, rank⟩ t₀
      simp only [Bool.not_true, Bool.false_eq_true, if_false, run, Act.andThen_ok,
        Act.pure_run, List.nil_append]
      refine ⟨_, b, t, rfl, reads₀.trans reads, fun hok => ?_⟩
      rw [Bool.and_eq_true] at hok
      refine ⟨?_, by simpa using hok.2⟩
      rw [h hok.1, reads₀.flash, (h₀ rfl).1]
      unfold scan scanned Scan.start
      rw [if_neg two, if_neg two]

theorem getTrialActiveFwdIndex_clean {e : Env} (dev : e.HoldsFwds) {s : St}
    (init : s.fuInitialized = true) (several : s.fwdSupportNum ≠ 1)
    (clean : s.readFaults = []) :
    getTrialActiveFwdIndex e s = ⟨.ok ((scan s.flash s.fwdSupportNum).trial != unused,
      scan s.flash s.fwdSupportNum), s, []⟩ := by
  unfold getTrialActiveFwdIndex
  simp only [Act.bind_run, Act.attempt, init_ready init, Act.andThen_ok, List.nil_append,
    Act.read_run, Act.ite_run]
  rw [if_neg several]
  unfold scan scanned Scan.start
  by_cases two : s.fwdSupportNum = 2
  · have run := scanLoop_clean dev (show ∀ i ∈ [0, 1], i < maxFwd by decide) ⟨unused, 0, 0⟩ init
      clean
    simp only [two, if_true, run, Act.andThen_ok, Act.pure_run, List.nil_append, Bool.true_and]
  · have run := scanLoop_clean dev (show ∀ i ∈ [1, 2], i < maxFwd by decide)
      ⟨unused, 0, fwdField s.flash 0 .rank⟩ init clean
    simp only [if_neg two, Act.bind_run,
      getFwdInfo_clean dev (show 0 < maxFwd by decide) _ _ init clean, Act.andThen_ok,
      Act.ite_run, Bool.not_true, Bool.false_eq_true, if_false, run, Act.pure_run,
      List.nil_append, Bool.true_and]

end Qapp.Fw
