import Qapp.Fw.Accept
import Qapp.Fw.Requests

/-!
# What the handlers make of a decoding result

A request that cannot be decoded is to be refused, one that can is to be acted on
with its values. The upload handler does both.
-/

namespace Qapp.Fw
open ByteMem Traced

variable {e : Env} {garbage : Nat} {fits : Bool} {s t u : St} {l k : List Event}

/-- Between the states nothing has happened to the devices and the upload. -/
structure Spares (s : St) (l : List Event) (t : St) : Prop where
  flash : t.flash = s.flash
  rram : t.rram = s.rram
  cxt : t.cxt = s.cxt
  imageHdr : t.imageHdr = s.imageHdr
  notes : ∀ w ∈ l, ∃ n, w = .note n

theorem Spares.trans (h : Spares s l t) (h' : Spares t k u) : Spares s (l ++ k) u where
  flash := h'.flash.trans h.flash
  rram := h'.rram.trans h.rram
  cxt := h'.cxt.trans h.cxt
  imageHdr := h'.imageHdr.trans h.imageHdr
  notes := by
    intro w hw
    rcases List.mem_append.mp hw with hw | hw
    · exact h.notes w hw
    · exact h'.notes w hw

theorem Reads.spares (h : Reads s t) : Spares s [] t :=
  ⟨h.flash, h.rram, h.cxt, h.imageHdr, fun _ hw => nomatch hw⟩

/-- An operation that reached a device is not spared. -/
theorem Spares.no_op (h : Spares s l t) (who : Issuer) (op : Op) (out : Outcome) :
    .op who op out ∉ l := by
  intro mem
  obtain ⟨n, eq⟩ := h.notes _ mem
  cases eq

/-- `CONFIG_FW_UPGRADE_FWD_SUPPORT_NUM` is 0 before `fw_upgrade_init`, which completes
only with 2 or 3. -/
structure Sane (s : St) : Prop where
  num : s.fwdSupportNum ≤ maxFwd
  ready : s.fuInitialized = true → Ready s

theorem getPartitionBaseOnGolden_cases (e : Env) (s : St) :
    ∃ num t, getPartitionBaseOnGolden e s = ⟨.ok num, t, []⟩ ∧ Reads s t ∧ num ≤ maxFwd := by
  unfold getPartitionBaseOnGolden
  simp only [Act.bind_run, Act.read_run, Act.andThen_ok, Act.ite_run]
  split
  · cases findFde s.rram fun i => fdeId s.rram i == fdeIdApp && fdeRank s.rram i == fdeRankGolden with
    | some i => exact ⟨3, s, rfl, .refl s, by decide⟩
    | none =>
      obtain ⟨ok, m, t, run, reads, -⟩ := flashRead_cases e (fwdAddr 0) 512 s
      simp only [Act.bind_run, run, Act.andThen_ok, Act.ite_run]
      split
      · split
        · exact ⟨3, t, rfl, reads, by decide⟩
        · exact ⟨2, t, rfl, reads, by decide⟩
      · exact ⟨1, t, rfl, reads, by decide⟩
  · exact ⟨1, s, rfl, .refl s, by decide⟩

theorem init_cases (e : Env) {s : St} (before : s.fuInitialized = true → Ready s) :
    ∃ r t l, init e s = ⟨r, t, l⟩ ∧ Spares s l t ∧ (r = .ok () → Ready t) := by
  cases hi : s.fuInitialized with
  | true =>
    refine ⟨.ok (), s, [], init_ready hi, (Reads.refl s).spares, fun _ => before hi⟩
  | false =>
    have alloc : ∃ r t l, allocMemParams s = ⟨r, t, l⟩ ∧ Spares s l t := by
      unfold allocMemParams
      simp only [Act.bind_run, Act.read_run, Act.andThen_ok, Act.ite_run]
      split
      · exact ⟨_, s, _, rfl, (Reads.refl s).spares⟩
      · rcases malloc_cases .memParams s with run | ⟨run, -⟩
        · simp only [run, Act.andThen_ok]
          refine ⟨_, _, _, rfl, rfl, rfl, rfl, rfl, ?_⟩
          simp
        · simp only [run, Act.andThen_ok]
          refine ⟨_, _, _, rfl, rfl, rfl, rfl, rfl, ?_⟩
          simp
    obtain ⟨r, t, l, run, spares⟩ := alloc
    unfold init
    simp only [Act.bind_run, Act.read_run, Act.andThen_ok, Act.ite_run, hi, Bool.false_eq_true,
      if_false, run]
    split
    · exact ⟨_, s, _, rfl, (Reads.refl s).spares, by simp⟩
    cases r with
    | error err => exact ⟨_, t, l, rfl, spares, by simp⟩
    | ok _ =>
      simp only [Act.andThen_ok, Act.update_run, Act.bind_run]
      obtain ⟨num, u, run', reads, le⟩ := getPartitionBaseOnGolden_cases e
        { t with handles := fun k => if k < maxHandles then { t.handles k with refCount := 0 }
          else t.handles k }
      simp only [run', Act.andThen_ok, List.nil_append]
      have same : Spares t [] u := by
        have := reads.spares
        exact ⟨this.flash, this.rram, this.cxt, this.imageHdr, this.notes⟩
      have all := spares.trans same
      rw [List.append_nil] at all
      split
      · refine ⟨_, _, _, rfl, ?_, by simp⟩
        exact ⟨all.flash, all.rram, all.cxt, all.imageHdr, by simpa using all.notes⟩
      · rename_i ok
        refine ⟨_, _, _, rfl, ?_, fun _ => ⟨rfl, ?_⟩⟩
        · exact ⟨all.flash, all.rram, all.cxt, all.imageHdr, by simpa using all.notes⟩
        · show num = 2 ∨ num = 3
          omega

/-- The scan begins with `init`. -/
theorem getTrialActiveFwdIndex_init (run : init e s = ⟨.ok (), t, l⟩)
    (done : t.fuInitialized = true) : getTrialActiveFwdIndex e s =
      ⟨(getTrialActiveFwdIndex e t).res, (getTrialActiveFwdIndex e t).state,
        l ++ (getTrialActiveFwdIndex e t).trace⟩ := by
  unfold getTrialActiveFwdIndex
  simp only [Act.bind_run, Act.attempt, run, init_ready done, Act.andThen_ok, List.nil_append]

theorem getTrialActiveFwdIndex_spares (e : Env) {s : St} (sane : Sane s) :
    ∃ ok a t l, getTrialActiveFwdIndex e s = ⟨.ok (ok, a), t, l⟩ ∧ Spares s l t ∧
      (ok = true → Ready t ∧ a = scan t.flash t.fwdSupportNum ∧ a.trial ≠ unused) := by
  obtain ⟨r, t, l, run, spares, ready⟩ := init_cases e sane.ready
  cases r with
  | error err =>
    refine ⟨false, ⟨unused, 0, 0⟩, t, l, ?_, spares, by simp⟩
    unfold getTrialActiveFwdIndex
    simp [Act.attempt, run]
  | ok _ =>
    have ready := ready rfl
    obtain ⟨ok, a, u, run', reads, found⟩ := getTrialActiveFwdIndex_cases e ready.init
    refine ⟨ok, a, u, l, ?_, ?_, fun h => ?_⟩
    · rw [getTrialActiveFwdIndex_init run ready.init, run', List.append_nil]
    · have := spares.trans reads.spares
      rwa [List.append_nil] at this
    · rw [reads.flash, reads.num]
      exact ⟨reads.ready ready, found h⟩

/-! ## State write -/

/-- Both table scans of the acceptance find a trial, and the boot type reads as TRIAL. -/
def Proposed (e : Env) (garbage : Nat) (s : St) : Prop :=
  (∃ a, (getTrialActiveFwdIndex e s).res = .ok (true, a)) ∧
  (∃ a, (getTrialActiveFwdIndex e (getTrialActiveFwdIndex e s).state).res = .ok (true, a)) ∧
  (getActiveFwd s.rram (some garbage)).2 = some bootTypeTrial

/-- The first write of an acceptance. -/
theorem setFwdInfo_reaches {e : Env} (dev : e.HoldsFwds) {i : Nat} (hi : i < maxFwd)
    (info : FwdInfo) (v : Nat) {s : St} (init : s.fuInitialized = true) :
    ∃ who op out, .op who op out ∈ (setFwdInfo e i info v s).trace ∧ out ≠ .rejected := by
  obtain ⟨out, t, run, possible, -⟩ := flashWrite_cases e (.info i info)
    (fwdAddr i + info.offset) (leBytes info.size v) s
  unfold setFwdInfo
  simp only [Act.bind_run, validation_run, init, if_true, Act.andThen_ok, Nat.not_le.mpr hi,
    if_false, run, List.nil_append]
  refine ⟨_, _, _, List.mem_singleton.mpr rfl, ?_⟩
  intro rejected
  obtain ⟨a, n, range, lt⟩ := possible.outside rejected
  cases range
  rw [length_leBytes] at lt
  have := dev.field hi info
  omega

theorem acceptTrialFwd_proposed {e : Env} (dev : e.HoldsFwds) (garbage : Nat) {s : St} (ready : Ready s) :
    ((∃ a, (getTrialActiveFwdIndex e s).res = .ok (true, a)) ∧
      (getActiveFwd s.rram (some garbage)).2 = some bootTypeTrial ∧
      ∃ who op out, .op who op out ∈ (acceptTrialFwd e garbage s).trace ∧ out ≠ .rejected) ∨
    (¬((∃ a, (getTrialActiveFwdIndex e s).res = .ok (true, a)) ∧
      (getActiveFwd s.rram (some garbage)).2 = some bootTypeTrial) ∧
      ∃ err t, acceptTrialFwd e garbage s = ⟨.error err, t, []⟩ ∧ Reads s t) := by
  obtain ⟨ok, a, t, run, reads, found⟩ := getTrialActiveFwdIndex_cases e ready.init
  unfold acceptTrialFwd
  simp only [Act.bind_run, run, Act.andThen_ok, List.nil_append]
  cases ok with
  | false =>
    right
    refine ⟨by simp, ?_⟩
    exact ⟨_, t, rfl, reads⟩
  | true =>
    obtain ⟨rfl, trial⟩ := found rfl
    have lt := scanned_lt (scan_trial_mem trial).1
    simp only [if_true, Act.bind_run, Act.read_run, Act.andThen_ok, List.nil_append, reads.rram,
      reads.num, Act.ite_run]
    split
    · rename_i boot
      left
      refine ⟨⟨_, rfl⟩, boot, ?_⟩
      obtain ⟨who, op, out, mem, ne⟩ := setFwdInfo_reaches dev lt .rank
        (((scan s.flash s.fwdSupportNum).rank + 1) % 2 ^ 32) (reads.ready ready).init
      refine ⟨who, op, out, ?_, ne⟩
      unfold Out.andThen
      split
      · exact List.mem_append_left _ mem
      · exact mem
    · rename_i boot
      right
      refine ⟨fun h => boot h.2, ?_⟩
      exact ⟨_, t, rfl, reads⟩

theorem sessionDone_proposed {e : Env} (dev : e.HoldsFwds) (garbage : Nat) {s : St} (sane : Sane s) :
    (Proposed e garbage s ∧ ∃ who op out,
      .op who op out ∈ (sessionDone e garbage true s).trace ∧ out ≠ .rejected) ∨
    (¬Proposed e garbage s ∧ ∃ err t l, sessionDone e garbage true s = ⟨.error err, t, l⟩ ∧
      Spares s l t) := by
  obtain ⟨ok, a, t, l, run, spares, found⟩ := getTrialActiveFwdIndex_spares e sane
  unfold Proposed sessionDone
  simp only [Act.bind_run, run, Act.andThen_ok]
  cases ok with
  | false =>
    right
    refine ⟨by simp, ?_⟩
    refine ⟨_, t, _, rfl, ?_⟩
    simpa using spares
  | true =>
    obtain ⟨ready, -, -⟩ := found rfl
    rw [← spares.rram]
    simp only [if_true, Act.orFail]
    rcases acceptTrialFwd_proposed dev garbage ready with
      ⟨again, boot, who, op, out, mem, ne⟩ | ⟨refused, err, u, run', reads⟩
    · left
      refine ⟨⟨⟨_, rfl⟩, again, boot⟩, who, op, out, ?_, ne⟩
      exact List.mem_append_right _ mem
    · right
      refine ⟨fun h => refused h.2, ?_⟩
      rw [run']
      exact ⟨_, u, _, rfl, spares.trans reads.spares⟩

/-- An error answer that leaves the devices and the upload alone. -/
structure Refused (s : St) (o : Out St Event Status Answer) : Prop where
  answer : ∃ a, o.res = .ok a ∧ a.ret ≠ .eok
  spares : Spares s o.trace o.state

/-- A decoded `confirm` is acted on, anything else is refused. -/
def StateWriteRespects (e : Env) (garbage : Nat) (fits : Bool) (r : StateWriteRequest)
    (s : St) : Prop :=
  (r.rc = 0 → stateWrite e garbage fits r s = confirmImage e garbage fits r.vars s) ∧
  (r.rc ≠ 0 → Refused s (stateWrite e garbage fits r s))

theorem confirmImage_answers (e : Env) (garbage : Nat) (fits confirm : Bool) (s : St) :
    (confirmImage e garbage fits confirm s).res ≠ .ok .invalid := by
  have answers : Answer.failure fits .eunknown ≠ .invalid ∧ Answer.success fits none ≠ .invalid := by
    cases fits <;> decide
  unfold confirmImage
  cases confirm with
  | false => simpa using answers.2
  | true =>
    simp only [if_true, Act.bind_run, Act.attempt, Act.andThen_ok]
    cases (sessionDone e garbage true s).res with
    | error err => simpa using answers.1
    | ok _ => simpa using answers.2

theorem stateWrite_respects_iff {e : Env} (dev : e.HoldsFwds) (r : StateWriteRequest) {s : St}
    (sane : Sane s) : StateWriteRespects e garbage fits r s ↔
      r.rc ≠ 0 ∧ if r.vars then ¬Proposed e garbage s else fits = false := by
  unfold StateWriteRespects stateWrite
  by_cases rc : r.rc = 0
  · simp only [rc, ne_eq, not_true_eq_false, decide_false, Bool.not_false, if_true,
      Act.pure_run, forall_const, false_implies, and_true, false_and, iff_false]
    intro same
    apply confirmImage_answers e garbage fits r.vars s
    rw [← same]
  · simp only [rc, ne_eq, not_false_eq_true, decide_true, Bool.not_true, Bool.false_eq_true,
      if_false, false_implies, forall_const, true_and]
    unfold confirmImage
    cases r.vars with
    | false =>
      simp only [Bool.false_eq_true, if_false, Act.pure_run]
      constructor
      · intro refused
        obtain ⟨a, res, ne⟩ := refused.answer
        cases res
        cases fits with
        | false => rfl
        | true => exact absurd rfl ne
      · rintro rfl
        exact ⟨⟨_, rfl, by decide⟩, (Reads.refl s).spares⟩
    | true =>
      simp only [if_true, Act.bind_run, Act.attempt, Act.andThen_ok]
      rcases sessionDone_proposed dev garbage sane with
        ⟨proposed, who, op, out, mem, -⟩ | ⟨refused, err, t, l, run, spares⟩
      · constructor
        · intro refused
          exfalso
          apply refused.spares.no_op who op out
          exact List.mem_append_left _ mem
        · intro h
          exact absurd proposed h
      · rw [run]
        simp only [Act.pure_run, List.append_nil]
        refine ⟨fun _ => refused, fun _ => ⟨⟨_, rfl, ?_⟩, spares⟩⟩
        simp [Answer.failure]

/-! ## Erase -/

theorem eraseSlot_outside {slot : Nat} (h : s.fwdSupportNum ≤ slot) :
    eraseSlot e fits slot s = ⟨.ok (.failure fits .einval), s, []⟩ := by
  unfold eraseSlot
  simp [h]

theorem eraseSlot_uninitialized {slot : Nat} (h : slot < s.fwdSupportNum) {err : Status}
    (run : init e s = ⟨.error err, t, l⟩) :
    eraseSlot e fits slot s = ⟨.ok (.failure fits .eunknown), t, l⟩ := by
  unfold eraseSlot
  simp [Nat.not_le.mpr h, Act.attempt, run]

/-- A slot of an initialized module is erased, or its erase fails. -/
theorem eraseSlot_reaches {e : Env} (dev : e.HoldsFwds) (fits : Bool) {s t : St} {slot : Nat}
    (h : slot < s.fwdSupportNum) (lt : slot < maxFwd) (run : init e s = ⟨.ok (), t, l⟩)
    (done : t.fuInitialized = true) : ∃ a u op out,
      eraseSlot e fits slot s = ⟨.ok a, u, l ++ [.op (.fwd slot) op out]⟩ ∧ out ≠ .rejected ∧
      a.ret ≠ .einval := by
  obtain ⟨out, u, run', possible, -⟩ := flashErase_cases e (.fwd slot) slot 1 t
  have kept : out ≠ .rejected := by
    intro rejected
    obtain ⟨a, n, range, outside⟩ := possible.outside rejected
    cases range
    unfold Env.HoldsFwds at dev
    unfold Env.memSize blockSize at outside
    unfold maxFwd at dev lt
    omega
  unfold eraseSlot eraseFwd
  simp only [Act.bind_run, Act.read_run, Act.andThen_ok, Act.ite_run, Nat.not_le.mpr h, if_false,
    Act.attempt, run, validation_run, done, if_true, Nat.not_le.mpr lt, run', List.nil_append]
  cases out with
  | done =>
    refine ⟨_, u, _, _, rfl, kept, ?_⟩
    cases fits <;> decide
  | failed left =>
    refine ⟨_, u, _, _, rfl, kept, ?_⟩
    cases fits <;> decide
  | rejected => exact absurd rfl kept

/-- The slot a decoded request names. -/
def named (r : EraseRequest) : Nat := if r.decoded = 0 then defaultSlot else r.vars

/-- The slot named in a decoded request is erased, anything else is refused. -/
def EraseRespects (e : Env) (fits : Bool) (r : EraseRequest) (s : St) : Prop :=
  (r.rc = 0 → erase e fits r s = eraseSlot e fits (named r) s) ∧
  (r.rc ≠ 0 → Refused s (erase e fits r s))

/-- Slots that are answered alike, whether they exist or not. -/
theorem eraseSlot_eq_iff {e : Env} (dev : e.HoldsFwds) {s : St} (sane : Sane s) {i j : Nat} :
    eraseSlot e fits i s = eraseSlot e fits j s ↔ i = j ∨
      (s.fwdSupportNum ≤ i ∧ s.fwdSupportNum ≤ j) ∨
      (i < s.fwdSupportNum ∧ j < s.fwdSupportNum ∧ (init e s).res ≠ .ok ()) := by
  obtain ⟨r, t, l, run, -, ready⟩ := init_cases e sane.ready
  have answers : ∀ k, k < s.fwdSupportNum →
      (eraseSlot e fits k s).res ≠ .ok (.failure fits .einval) := by
    intro k hk same
    cases r with
    | error err =>
      rw [eraseSlot_uninitialized hk run] at same
      revert same
      cases fits <;> simp [Answer.failure]
    | ok _ =>
      obtain ⟨a, u, op, out, run', -, ne⟩ := eraseSlot_reaches dev fits hk
        (Nat.lt_of_lt_of_le hk sane.num) run (ready rfl).init
      rw [run'] at same
      cases same
      exact ne rfl
  by_cases hi : s.fwdSupportNum ≤ i
  · by_cases hj : s.fwdSupportNum ≤ j
    · rw [eraseSlot_outside hi, eraseSlot_outside hj]
      simp [hi, hj]
    · rw [eraseSlot_outside hi]
      constructor
      · intro same
        exact absurd (by rw [← same]) (answers j (Nat.not_le.mp hj))
      · intro h
        omega
  · by_cases hj : s.fwdSupportNum ≤ j
    · rw [eraseSlot_outside hj]
      constructor
      · intro same
        exact absurd (by rw [same]) (answers i (Nat.not_le.mp hi))
      · intro h
        omega
    · rw [Nat.not_le] at hi hj
      cases r with
      | error err =>
        rw [eraseSlot_uninitialized hi run, eraseSlot_uninitialized hj run]
        simp [hi, hj, run]
      | ok _ =>
        obtain ⟨a, u, op, out, run₁, -⟩ := eraseSlot_reaches dev fits hi
          (Nat.lt_of_lt_of_le hi sane.num) run (ready rfl).init
        obtain ⟨b, v, op', out', run₂, -⟩ := eraseSlot_reaches dev fits hj
          (Nat.lt_of_lt_of_le hj sane.num) run (ready rfl).init
        constructor
        · intro same
          rw [run₁, run₂] at same
          simp only [Out.mk.injEq, List.append_cancel_left_eq, List.cons.injEq, Event.op.injEq,
            Issuer.fwd.injEq] at same
          exact .inl same.2.2.1.1
        · rintro (rfl | h | h)
          · rfl
          · omega
          · exact absurd (by rw [run]) h.2.2

theorem erase_respects_iff {e : Env} (dev : e.HoldsFwds) (r : EraseRequest) {s : St}
    (sane : Sane s) : EraseRespects e fits r s ↔
      if r.rc = 0 then named r = defaultSlot ∨
        (s.fwdSupportNum ≤ defaultSlot ∧ s.fwdSupportNum ≤ named r) ∨
        (defaultSlot < s.fwdSupportNum ∧ named r < s.fwdSupportNum ∧ (init e s).res ≠ .ok ())
      else s.fwdSupportNum ≤ named r ∨ (init e s).res ≠ .ok () := by
  unfold EraseRespects erase
  by_cases rc : r.rc = 0
  · simp only [rc, ne_eq, not_true_eq_false, decide_false, Bool.not_false, true_or, if_true,
      forall_const, false_implies, and_true]
    rw [eraseSlot_eq_iff dev sane, eq_comm]
  · have slot : (if (!decide (r.rc ≠ 0)) = true ∨ r.decoded = 0 then defaultSlot else r.vars) =
        named r := by
      simp [named, rc]
    rw [slot]
    simp only [rc, ne_eq, not_false_eq_true, if_false, false_implies, forall_const, true_and]
    by_cases outside : s.fwdSupportNum ≤ named r
    · rw [eraseSlot_outside outside]
      simp only [outside, true_or, iff_true]
      refine ⟨⟨_, rfl, ?_⟩, (Reads.refl s).spares⟩
      simp [Answer.failure]
    · rw [Nat.not_le] at outside
      obtain ⟨r', t, l, run, spares, ready⟩ := init_cases e sane.ready
      cases r' with
      | error err =>
        rw [eraseSlot_uninitialized outside run, run]
        simp only [reduceCtorEq, not_false_eq_true, or_true, iff_true]
        refine ⟨⟨_, rfl, ?_⟩, spares⟩
        simp [Answer.failure]
      | ok _ =>
        obtain ⟨a, u, op, out, run', -, -⟩ := eraseSlot_reaches dev fits outside
          (Nat.lt_of_lt_of_le outside sane.num) run (ready rfl).init
        rw [run', run]
        simp only [not_true_eq_false, or_false, Nat.not_le.mpr outside, iff_false]
        intro refused
        exact refused.spares.no_op _ _ _ (List.mem_append_right _ (List.mem_singleton.mpr rfl))

/-! ## All three handlers -/

/-- A decoded segment is acted on, anything else is refused. -/
def UploadRespects {σ : Type} (process : Nat → List UInt8 → σ → Option Status × σ)
    (fits : Bool) (r : UploadRequest) (sv : Server σ) : Prop :=
  (r.rc = 0 → upload process fits r sv = uploadSegment process fits r.vars sv) ∧
  (r.rc ≠ 0 → upload process fits r sv = ⟨.invalid, none, sv⟩)

/-- The upload handler always respects the result of the decoder. The other two take it
the wrong way round, which shows unless the request comes to the same. -/
theorem handlers_respect_decoder {e : Env} (dev : e.HoldsFwds) (garbage : Nat) (fits : Bool) :
    (∀ (σ : Type) (process : Nat → List UInt8 → σ → Option Status × σ) r sv,
      UploadRespects process fits r sv) ∧
    (∀ r s, Sane s → (StateWriteRespects e garbage fits r s ↔
      r.rc ≠ 0 ∧ if r.vars then ¬Proposed e garbage s else fits = false)) ∧
    (∀ r s, Sane s → (EraseRespects e fits r s ↔
      if r.rc = 0 then named r = defaultSlot ∨
        (s.fwdSupportNum ≤ defaultSlot ∧ s.fwdSupportNum ≤ named r) ∨
        (defaultSlot < s.fwdSupportNum ∧ named r < s.fwdSupportNum ∧ (init e s).res ≠ .ok ())
      else s.fwdSupportNum ≤ named r ∨ (init e s).res ≠ .ok ())) := by
  refine ⟨fun σ process r sv => ⟨fun h => if_pos h, fun h => if_neg h⟩, ?_, ?_⟩
  · exact fun r s sane => stateWrite_respects_iff dev r sane
  · exact fun r s sane => erase_respects_iff dev r sane

theorem loneTrial_sane : Sane loneTrial := ⟨by decide, fun _ => loneTrial_ready⟩

theorem smallEnv_holds : smallEnv.HoldsFwds := by
  unfold Env.HoldsFwds
  decide

/-- A request that names slot 1 erases it. -/
theorem named_slot_respected :
    EraseRespects smallEnv true ⟨0, Int.le_refl 0, 1, 1⟩ loneTrial ∧
    erase smallEnv true ⟨0, Int.le_refl 0, 1, 1⟩ loneTrial = eraseSlot smallEnv true 1 loneTrial := by
  have respects : EraseRespects smallEnv true ⟨0, Int.le_refl 0, 1, 1⟩ loneTrial := by
    apply ((handlers_respect_decoder smallEnv_holds 0 true).2.2 _ _ loneTrial_sane).mpr
    rw [if_pos rfl]
    exact .inl rfl
  exact ⟨respects, respects.1 rfl⟩

/-- A confirmation that decodes is answered as invalid, and a request that names slot 0
erases slot 1. -/
theorem decoded_requests_ignored :
    ¬StateWriteRespects smallEnv 0 true ⟨0, Int.le_refl 0, 1, true⟩ loneTrial ∧
    stateWrite smallEnv 0 true ⟨0, Int.le_refl 0, 1, true⟩ loneTrial =
      ⟨.ok .invalid, loneTrial, []⟩ ∧
    ¬EraseRespects smallEnv true ⟨0, Int.le_refl 0, 1, 0⟩ loneTrial ∧
    erase smallEnv true ⟨0, Int.le_refl 0, 1, 0⟩ loneTrial =
      eraseSlot smallEnv true 1 loneTrial := by
  refine ⟨fun h => ?_, rfl, fun h => ?_, rfl⟩
  · exact ((stateWrite_respects_iff smallEnv_holds _ loneTrial_sane).mp h).1 rfl
  · have := (erase_respects_iff smallEnv_holds _ loneTrial_sane).mp h
    rw [if_pos rfl] at this
    rcases this with eq | outside | ⟨-, -, failed⟩
    · exact absurd eq (by decide)
    · exact absurd outside.1 (by decide)
    · exact failed (by rw [init_ready rfl])

end Qapp.Fw
