import Qapp.Fw.Ctl

/-!
# Starting a session and preparing the trial FWD
-/

namespace Qapp.Fw
open ByteMem Traced
open Relation (ReflTransGen)

variable {e : Env} {retry : Bool}

/-! ## Starting and ending -/

theorem getPartitionBaseOnGolden_run (e : Env) (s : St) :
    ∃ n t, getPartitionBaseOnGolden e s = ⟨.ok n, t, []⟩ ∧ Reads s t := by
  unfold getPartitionBaseOnGolden
  simp only [Act.bind_run, Act.read_run, Act.andThen_ok, Act.ite_run, List.nil_append]
  split
  · cases findFde s.rram fun i => fdeId s.rram i == fdeIdApp && fdeRank s.rram i == fdeRankGolden with
    | some i => exact ⟨_, s, rfl, .refl s⟩
    | none =>
      obtain ⟨ok, m, t, run, reads, -⟩ := flashRead_cases e (fwdAddr 0) 512 s
      simp only [Act.bind_run, run, Act.andThen_ok, List.nil_append, Act.ite_run]
      split
      · split <;> exact ⟨_, t, rfl, reads⟩
      · exact ⟨_, t, rfl, reads⟩
  · exact ⟨_, s, rfl, .refl s⟩

theorem sessionFin_run (digestCtx : Bool) (s : St) :
    ∃ hs l, sessionFin digestCtx s =
        ⟨.ok (), { s with handles := hs, cxt := none, imageHdr := none }, l⟩ ∧
      ∀ w ∈ l, ∃ n, w = .note n := by
  have done : ∀ (t : St) (l : List Event),
      t = { s with handles := t.handles, cxt := none, imageHdr := none } →
      (∀ w ∈ l, ∃ n, w = .note n) → ∃ hs l', (⟨.ok (), t, l⟩ : Out St Event Status Unit) =
        ⟨.ok (), { s with handles := hs, cxt := none, imageHdr := none }, l'⟩ ∧
      ∀ w ∈ l', ∃ n, w = .note n :=
    fun t l h notes => ⟨t.handles, l, by rw [← h], notes⟩
  unfold sessionFin
  cases hc : s.cxt with
  | none =>
    cases hi : s.imageHdr <;>
      simp only [Act.bind_run, Act.read_run, Act.andThen_ok, hc, hi, Act.emit_run,
        Option.isSome_none, Option.isSome_some, Bool.false_eq_true, if_false, if_true,
        Act.pure_run, free, Act.update_run]
    · refine done _ _ ?_ (by simp)
      cases s
      simp only at hc hi
      subst hc hi
      rfl
    · refine done _ _ ?_ (by simp)
      cases s
      simp only at hc
      subst hc
      rfl
  | some c =>
    have release := fun (t : St) (h : t.cxt = some c) => releasePartition_run h
    cases hi : s.imageHdr <;> cases hb : c.configBuf <;> cases digestCtx <;>
      simp only [Act.bind_run, Act.read_run, Act.andThen_ok, hc, hi, hb, Act.emit_run,
        Option.isSome_none, Option.isSome_some, Bool.false_eq_true, if_false, if_true, free,
        Act.update_run, release] <;>
      exact done _ _ (by simp) (by simp)

theorem freshCxt_ctl {s : St} (init : s.fuInitialized = true) : Ctl s freshCxt := by
  constructor <;> simp [freshCxt, init, FwState.early, FwState.holds, FwState.receiving,
    FwState.partialOnly, FwState.late, FwState.erased]

theorem sessionFin_moves (digestCtx : Bool) {P : St → List Event → Prop}
    {Q : Except Status Unit → St → List Event → Prop}
    (h : ∀ s l l' hs, P s l → Q (.ok ()) { s with handles := hs, cxt := none, imageHdr := none } l') :
    Sound (Move e retry) P (sessionFin digestCtx) Q := by
  intro s l hp
  obtain ⟨hs, l', run, notes⟩ := sessionFin_run digestCtx s
  rw [run]
  exact ⟨.head (.close hs) (moves_notes notes l), h s l _ hs hp⟩

/-! ## Selecting and erasing the trial FWD -/

theorem Ctl.aim {s : St} {c : Cxt} (ctl : Ctl s c) (state : c.fwUpgradeState = .getTrialInfo)
    (fwdIdx start size : Nat) : Ctl (s.withCxt { c with
      trialFwdIdx := fwdIdx, trialMemStart := start, trialMemSize := size }) { c with
      trialFwdIdx := fwdIdx, trialMemStart := start, trialMemSize := size } where
  init := ctl.init
  held := ctl.held
  first := ctl.first
  fresh := ctl.fresh
  loose := ctl.loose
  accepted := ctl.accepted
  image := ctl.image
  disconnect := ctl.disconnect
  current := ctl.current
  full := ctl.full
  count := ctl.count
  late := ctl.late
  dup := ctl.dup
  trial := by
    intro h
    simp only [state, FwState.erased] at h
    rcases h with h | h <;> cases h
  config := ctl.config

theorem Ctl.select {s : St} {c : Cxt} (ctl : Ctl s c) (state : c.fwUpgradeState = .getTrialInfo)
    {fwdIdx start size : Nat} (lt : fwdIdx < maxFwd) : Ctl (s.withCxt { c with
      trialFwdIdx := fwdIdx, trialMemStart := start, trialMemSize := size,
      fwUpgradeState := .eraseFwd }) { c with
      trialFwdIdx := fwdIdx, trialMemStart := start, trialMemSize := size,
      fwUpgradeState := .eraseFwd } := by
  have first : c.isFirst = true := ctl.first (by rw [state]; rfl)
  exact {
    init := ctl.init
    held := ctl.held
    first := fun _ => first
    fresh := ctl.fresh
    loose := fun h => by cases h
    accepted := ctl.accepted
    image := fun h => by cases h
    disconnect := fun h => by cases h
    current := fun h => by rw [first] at h; cases h
    full := fun _ h => by rw [first] at h; cases h
    count := ctl.count
    late := fun h => by cases h
    dup := fun _ => ctl.dup (by rw [state]; rfl)
    trial := fun _ => lt
    config := ctl.config }

theorem getTrialInfo_moves :
    Sound (Move e retry) (In .getTrialInfo) (getTrialInfo e) Left := by
  rintro s l ⟨c, hc, ctl, state⟩
  obtain ⟨quiet, trace, -, picks⟩ := (selectTrialFwd_reads e).run (l := l)
    ⟨ctl.heldSt hc, ctl.init⟩
  have hct := quiet.cxt.trans hc
  have ctl' := ctl.quiet hc quiet
  unfold getTrialInfo
  cases res : (selectTrialFwd e s).res with
  | error err =>
    simp only [Act.bind_run, Act.orFail, res, Out.andThen, trace, List.append_nil]
    exact ⟨.single (.quiet quiet), .of_ctl hct ctl', by simp⟩
  | ok r =>
    obtain ⟨i, start, size⟩ := r
    have lt := picks i start size res
    simp only [Act.bind_run, Act.orFail, res, Act.andThen_ok, updateCxt_run hct, Act.read_run,
      Act.ite_run, trace, List.nil_append]
    by_cases running : activeFwd (selectTrialFwd e s).state.rram = i
    · simp only [withCxt_rram, running, if_true, Act.fail_run, List.append_nil]
      refine ⟨.tail (.single (.quiet quiet)) (.aim i start size hct state), ?_, by simp⟩
      exact .of_ctl rfl (ctl'.aim state i start size)
    · simp only [withCxt_rram, running, if_false, Act.emit_run, Act.andThen_ok, setState,
        updateCxt_run (withCxt_cxt _ _), withCxt_withCxt, List.append_nil]
      refine ⟨.single (.select hc state res quiet ?_), ?_, fun _ _ => ?_⟩
      · rw [← quiet.rram]; exact running
      · exact .of_ctl rfl (ctl'.select state lt)
      · exact .of_ne rfl fun h => by cases h

variable (e retry) in
theorem eraseFwd_moves (c : Cxt) : Sound (Move e retry)
    (fun s l => s.cxt = some c ∧ In .eraseFwd s l) (do
      (eraseFwd e c.trialFwdIdx).orFail .flashEraseFail
      setState .eraseSecondFs) Left := by
  rintro s l ⟨hc, c', hc', ctl, state⟩
  rw [hc] at hc'
  cases hc'
  have lt := ctl.trial (.inl state)
  have addr : c.trialFwdIdx * blockSize % 2 ^ 32 = fwdAddr c.trialFwdIdx ∧
      1 * blockSize % 2 ^ 32 = blockSize := by
    unfold maxFwd at lt
    unfold fwdAddr blockSize
    omega
  obtain ⟨out, t, run, possible, ran⟩ := flashErase_cases e (.fwd c.trialFwdIdx) c.trialFwdIdx 1 s
  rw [addr.1, addr.2] at run possible ran
  have erase : eraseFwd e c.trialFwdIdx s = ⟨out.res, t,
      [.op (.fwd c.trialFwdIdx) (.erase (fwdAddr c.trialFwdIdx) blockSize) out]⟩ := by
    unfold eraseFwd
    simp only [Act.bind_run, validation_run, ctl.init, if_true, Act.andThen_ok,
      Nat.not_le.mpr lt, if_false, run, List.nil_append]
  have hct : t.cxt = some c := ran.cxt.trans hc
  have ctl' : Ctl t c := ctl.congr hc (ran.init.trans ctl.init) ran.cxt ran.imageHdr ran.partition
  have failed : out ≠ .done → Moves e retry (s, l) (t,
      l ++ [.op (.fwd c.trialFwdIdx) (.erase (fwdAddr c.trialFwdIdx) blockSize) out]) ∧ Good t :=
    fun bad => ⟨.single (.notErased hc state lt bad possible ran), .of_ctl hct ctl'⟩
  simp only [Act.bind_run, Act.orFail, erase]
  cases out with
  | done =>
    have first : c.isFirst = true := ctl.first (by rw [state]; rfl)
    simp only [Outcome.res, Act.andThen_ok, setState, updateCxt_run hct, List.append_nil]
    refine ⟨.single (.erased hc state lt possible ran), ?_, fun _ _ => .of_ne rfl (by simp)⟩
    refine .of_ctl rfl ?_
    exact {
      init := ctl'.init
      held := ctl'.held
      first := fun _ => first
      fresh := ctl'.fresh
      loose := fun h => by cases h
      accepted := ctl'.accepted
      image := fun h => by cases h
      disconnect := fun h => by cases h
      current := fun h => by rw [first] at h; cases h
      full := fun _ h => by rw [first] at h; cases h
      count := ctl'.count
      late := fun h => by cases h
      dup := fun _ => ctl'.dup (by rw [state]; rfl)
      trial := fun _ => lt
      config := ctl'.config }
  | failed left =>
    obtain ⟨moves, good⟩ := failed (by simp)
    exact ⟨moves, good, by simp [Outcome.res]⟩
  | rejected =>
    obtain ⟨moves, good⟩ := failed (by simp)
    exact ⟨moves, good, by simp [Outcome.res]⟩

/-! ## Partitions of the running FWD -/

/-- The session holds a partition of the running FWD. -/
def Foreign (id : Nat) (client : Client) (s : St) : Prop :=
  ∃ c k, s.cxt = some c ∧ c.partitionHdl = some k ∧ s.handles k = client ∧
    Lookup s.flash (activeFwd s.rram) id client

/-- The two states in which the session opens partitions of the running FWD. -/
def FwState.opens (x : FwState) : Prop := x = .eraseSecondFs ∨ x = .prepareFs

theorem FwState.opens.early {x : FwState} (h : x.opens) : x.early = true := by
  rcases h with rfl | rfl <;> rfl

theorem FwState.opens.holds {x : FwState} (h : x.opens) : x.holds = true := by
  rcases h with rfl | rfl <;> rfl

theorem FwState.opens.bulk {x : FwState} (h : x.opens) : x.bulk = true := by
  rcases h with rfl | rfl <;> rfl

theorem Ctl.hold {s t : St} {c : Cxt} (ctl : Ctl s c) (early : c.fwUpgradeState.early = true)
    (holds : c.fwUpgradeState.holds = true) {hdl : Option Nat}
    (init : t.fuInitialized = s.fuInitialized)
    (held : ∀ k, hdl = some k → k < maxHandles ∧ 0 < (t.handles k).refCount)
    : Ctl t { c with partitionHdl := hdl } := by
  have first : c.isFirst = true := ctl.first early
  exact { ctl with
    init := init.trans ctl.init
    held := held
    loose := fun h => by rw [holds] at h; cases h
    accepted := fun h => by rw [first] at h; cases h
    count := fun h => by rw [first] at h; cases h }

/-- What opening a partition of the running FWD leaves. -/
structure Opens (x : FwState) (id : Nat) (none : Prop) (r : Except Status Client) (s : St)
    (l : List Event) : Prop where
  inState : In x s l
  foreign : ∀ client, r = .ok client → Foreign id client s
  none : ∀ err, r = .error err → none → s.partition = .none

/-- The assertion `openPartition` starts from. -/
def Openable (x : FwState) (none : Prop) (fwdIdx : Nat) (s : St) (l : List Event) : Prop :=
  fwdIdx = activeFwd s.rram ∧ In x s l ∧ (none → s.partition = .none)

theorem openPartition_moves {x : FwState} (opens : x.opens) (fwdIdx id : Nat) (none : Prop) :
    Sound (Move e retry) (Openable x none fwdIdx) (openPartition e fwdIdx id)
      (Opens x id none) := by
  rintro s l ⟨rfl, ⟨c, hc, ctl, state⟩, empty⟩
  obtain ⟨r, t, run, quiet, -, opened⟩ := (findPartition_reads e (activeFwd s.rram) id).exists_run
    (l := l) ⟨ctl.heldSt hc, ctl.init⟩
  have hct := quiet.cxt.trans hc
  have ctl' := ctl.quiet hc quiet
  unfold openPartition
  simp only [Act.bind_run, run]
  cases r with
  | error err =>
    simp only [Act.andThen_error, List.append_nil]
    exact ⟨.single (.quiet quiet), ⟨c, hct, ctl', state⟩, by simp,
      fun _ _ h => quiet.partition.trans (empty h)⟩
  | ok k =>
    have open' := opened k rfl
    simp only [Act.andThen_ok, Act.bind_run, updateCxt_run hct, Act.read_run, Act.pure_run,
      List.append_nil]
    have early : c.fwUpgradeState.early = true := by rw [state]; exact opens.early
    have holds : c.fwUpgradeState.holds = true := by rw [state]; exact opens.holds
    refine ⟨.tail (.single (.quiet quiet)) (.attach t.handles k hct (ctl.first early)), ?_, ?_,
      by simp⟩
    · refine ⟨_, rfl, ctl'.hold early holds rfl fun j hj => ?_, state⟩
      cases hj
      exact ⟨open'.lt, open'.used⟩
    · intro client h
      cases h
      refine ⟨_, k, rfl, rfl, rfl, ?_⟩
      rw [withCxt_flash, withCxt_rram, quiet.rram]
      exact open'.found

theorem releasePartition_moves {x : FwState} (opens : x.opens) :
    Sound (Move e retry) (In x) releasePartition fun _ s l => In x s l ∧ s.partition = none := by
  rintro s l ⟨c, hc, ctl, state⟩
  rw [releasePartition_run hc]
  simp only [List.append_nil]
  refine ⟨.single (.detach _ hc), ⟨_, rfl, ?_, state⟩, rfl⟩
  exact ctl.hold (by rw [state]; exact opens.early) (by rw [state]; exact opens.holds) rfl (by simp)

theorem eraseForeign_moves {x : FwState} (opens : x.opens) {id : Nat}
    (which : id = fs2ImgId ∨ id = ramdumpImgId) (c : Cxt) (client : Client) :
    Sound (Move e retry) (fun s l => s.cxt = some c ∧ In x s l ∧ Foreign id client s)
      (erasePartition e none c.partitionHdl 0 client.imgSize) fun _ s l => In x s l := by
  rintro s l ⟨hc, ⟨c', hc', ctl, state⟩, d, k, hd, hk, here, found⟩
  rw [hc] at hc' hd
  cases hc'
  cases hd
  have valid : handleValid s (some k) = true := by
    obtain ⟨lt, pos⟩ := ctl.held k hk
    unfold handleValid
    simp only [lt, pos, decide_true, Bool.and_self]
  obtain ⟨r, t, evs, ok, run, -, erase, -⟩ := erasePartition_run e none 0 client.imgSize valid
  rw [here] at erase
  rw [hk, run]
  have touches := erase.touches
  refine ⟨.single (.bulk hc (by rw [state]; exact opens.bulk) which found (touches.mono ?_)), ?_⟩
  · rintro who op - ⟨rfl, rfl, fits⟩
    exact ⟨0, rfl, .all fits⟩
  · exact ⟨c, touches.cxt.trans hc, ctl.touches hc touches, state⟩

theorem eraseSecondFs_moves : Sound (Move e retry) (In .eraseSecondFs) (eraseSecondFs e) Left := by
  have opens : FwState.eraseSecondFs.opens := .inl rfl
  have stop : ∀ err s l, In .eraseSecondFs s l → Left (α := Unit) (.error err) s l :=
    fun err s l h => h.left (by simp)
  unfold eraseSecondFs
  refine .read_bind fun a => ?_
  refine .andThen (K := fun r s l => In .eraseSecondFs s l ∧
    ∀ client, r = .ok client → Foreign fs2ImgId client s) ?_ (fun err s l h => stop err s l h.1)
    fun fs2 => ?_
  · refine .orFail (((openPartition_moves opens _ _ False).pre ?_).post ?_)
    · rintro s l ⟨rfl, h⟩
      exact ⟨rfl, h, False.elim⟩
    · intro r s l h
      cases r with
      | ok client => exact ⟨h.inState, h.foreign⟩
      | error err => exact ⟨h.inState, by simp⟩
  refine getCxt_bind (fun s l h => h.1.imp fun c hc => hc.1) fun c => ?_
  refine .andThen (K := fun _ s l => In .eraseSecondFs s l) ?_ stop fun _ => ?_
  · refine .orFail (((eraseForeign_moves opens (.inl rfl) c fs2).pre ?_).post ?_)
    · rintro s l ⟨hc, h, foreign⟩
      exact ⟨hc, h, foreign fs2 rfl⟩
    · rintro r s l h
      cases r <;> exact h
  refine .andThen (releasePartition_moves opens) (fun err s l h => stop err s l h.1) fun _ => ?_
  refine (setState_left (by simp)).pre ?_
  rintro s l ⟨⟨c, hc, ctl, state⟩, -⟩
  exact ⟨c, hc, ctl, goes_early ctl state rfl (.inl rfl) (by simp [FwState.late]) rfl (by simp),
    by simp⟩

/-! ## The entries the trial FWD starts with -/

/-- Handle `k` is not the session's own, its client is in use. -/
theorem held_setHandle {s : St} {k : Nat} (lt : k < maxHandles) {c : Client}
    (used : c.refCount = 1) : k < maxHandles ∧ 0 < ((setHandle k c s).handles k).refCount := by
  refine ⟨lt, ?_⟩
  simp only [setHandle, Function.update_self, used]
  exact Nat.zero_lt_one

theorem newHidden_moves {id : Nat} (hidden : isHidden id) (version start size : Nat) :
    Sound (Move e retry) (In .prepareFs) (newPartition e none id version start size)
      fun _ s l => In .prepareFs s l := by
  have opens : FwState.prepareFs.opens := .inr rfl
  rintro s l ⟨c, hc, ctl, state⟩
  have first : c.isFirst = true := ctl.first (by rw [state]; rfl)
  unfold newPartition
  simp only [Act.bind_run, getCxt_run hc, Act.andThen_ok, List.nil_append]
  rcases createPartition_cases e c.trialFwdIdx id version start size s with
    ⟨err, t, run, reads⟩ | ⟨i, out, t, entered, ⟨rfl, k, free, run⟩ | ⟨bad, run⟩⟩
  · simp only [run, Act.andThen_error, List.append_nil]
    have quiet := reads.quiet
    exact ⟨.single (.quiet quiet), In.quiet (l := l) ⟨c, hc, ctl, state⟩ quiet⟩
  · have touches := entered.touches
    have hct : t.cxt = some c := touches.cxt.trans hc
    have ctl' := ctl.touches hc touches
    have loose : Loose k t := ((ctl.heldSt hc).loose free).congr touches.cxt
    have quiet := quiet_setHandle loose ⟨c.trialFwdIdx, i, id, version, start, size, 1⟩
    have hcu := quiet.cxt.trans hct
    simp only [run, Act.andThen_ok, updateCxt_run hcu, Act.pure_run, Act.bind_run, List.append_nil]
    have early : c.fwUpgradeState.early = true := by rw [state]; rfl
    refine ⟨.tail (.tail (.single (.hide hc state first rfl hidden entered)) (.quiet quiet))
      (.attach _ k hcu first), ⟨_, rfl, ?_, state⟩⟩
    refine (ctl'.quiet hct quiet).hold early (by rw [state]; rfl) rfl fun j hj => ?_
    cases hj
    exact held_setHandle (freeHandle_some free).1 rfl
  · simp only [run, Act.andThen_error]
    have touches := entered.touches
    exact ⟨.single (.hide hc state first rfl hidden entered),
      ⟨c, touches.cxt.trans hc, ctl.touches hc touches, state⟩⟩

theorem countHidden_moves : Sound (Move e retry) (In .prepareFs)
    (updateCxt fun c => { c with hiddenImagesCount := c.hiddenImagesCount + 1 })
    fun _ s l => In .prepareFs s l := by
  rintro s l ⟨c, hc, ctl, state⟩
  simp only [updateCxt_run hc, List.append_nil]
  refine ⟨moves_tune hc rfl (.refl c), _, rfl, ?_, state⟩
  exact { ctl with }

theorem keepPartition_moves {id : Nat} (hidden : isHidden id) (client : Client) :
    Sound (Move e retry) (In .prepareFs) (keepPartition e id client) fun r s l =>
      In .prepareFs s l ∧ (r = .ok () → s.partition = none) := by
  have opens : FwState.prepareFs.opens := .inr rfl
  have stop : ∀ (err : Status) s l, In .prepareFs s l → In .prepareFs s l ∧
      (Except.error err = Except.ok () → s.partition = none) := fun err s l h => ⟨h, by simp⟩
  unfold keepPartition
  refine .andThen (releasePartition_moves opens) (fun err s l h => stop err s l h.1) fun _ => ?_
  refine .andThen (K := fun _ s l => In .prepareFs s l) ?_ stop fun _ => ?_
  · refine .orFail (((newHidden_moves hidden _ _ _).pre fun s l h => h.1).post ?_)
    intro r s l h
    cases r <;> exact h
  refine .andThen countHidden_moves stop fun _ => ?_
  exact (releasePartition_moves opens).post fun r s l h => ⟨h.1, fun _ => h.2⟩

/-- Reading a partition only reads. -/
theorem readPartition_reads (e : Env) (hdl : Option Nat) (offset count : Nat)
    {P : St → List Event → Prop} (keep : ∀ s t l, P s l → Reads s t → P t l) :
    OnlyReads P (readPartition e hdl offset count) fun r s l => P s l ∧
      ∃ ok bytes, r = .ok (ok, bytes) ∧ bytes.length = count := by
  refine OnlyReads.of_run fun s l hp => ?_
  cases hdl with
  | none => exact ⟨_, s, rfl, .refl s, hp, _, _, rfl, length_load _ _ _⟩
  | some k =>
    obtain ⟨ok, bytes, t, run, reads, len⟩ := readPartition_cases e k offset count s
    exact ⟨_, t, run, reads.quiet, keep s t l hp reads, ok, bytes, rfl, len⟩

theorem Foreign.reads {id : Nat} {client : Client} {s t : St} (h : Foreign id client s)
    (reads : Reads s t) : Foreign id client t := by
  obtain ⟨c, k, hc, hk, here, found⟩ := h
  exact ⟨c, k, reads.cxt.trans hc, hk, by rw [reads.handles]; exact here,
    by rw [reads.flash, reads.rram]; exact found⟩

theorem clearRamdump_moves (client : Client) : Sound (Move e retry)
    (fun s l => In .prepareFs s l ∧ Foreign ramdumpImgId client s) (clearRamdump e client)
    fun _ s l => In .prepareFs s l := by
  have opens : FwState.prepareFs.opens := .inr rfl
  unfold clearRamdump
  refine getCxt_bind (fun s l h => h.1.imp fun c hc => hc.1) fun c => ?_
  refine .andThen (readPartition_reads e c.partitionHdl 0 4 (fun s t l h reads => ?_)).moves
    (fun err s l h => h.1.2.1) fun r => .ite (fun _ => .fail _ fun s l h => h.1.2.1) fun _ =>
    .ite (fun _ => ?_) fun _ => .pure _ fun s l h => h.1.2.1
  · exact ⟨reads.cxt.trans h.1, h.2.1.quiet reads.quiet, h.2.2.reads reads⟩
  · refine .orFail (((eraseForeign_moves opens (.inr rfl) c client).pre fun s l h => h.1).post ?_)
    intro r s l h
    cases r <;> exact h

/-- What keeping a partition leaves: nothing is held unless it has failed. -/
def Kept (r : Except Status Unit) (s : St) (l : List Event) : Prop :=
  In .prepareFs s l ∧ (r = .ok () → s.partition = none)

theorem kept_stop (err : Status) (s : St) (l : List Event) (h : In .prepareFs s l) :
    Kept (.error err) s l := ⟨h, by simp⟩

theorem keepRamdump_moves : Sound (Move e retry)
    (fun s l => In .prepareFs s l ∧ s.partition = none) (keepRamdump e) Kept := by
  have opens : FwState.prepareFs.opens := .inr rfl
  unfold keepRamdump
  refine .read_bind fun a => .attempt_bind ((openPartition_moves opens _ _ True).pre ?_) fun r => ?_
  · rintro s l ⟨rfl, h, empty⟩
    exact ⟨rfl, h, fun _ => empty⟩
  cases r with
  | error err => exact .pure _ fun s l h => ⟨h.inState, fun _ => h.none err rfl trivial⟩
  | ok ramdump =>
    refine .andThen ((clearRamdump_moves ramdump).pre fun s l h => ?_) kept_stop fun _ => ?_
    · exact ⟨h.inState, h.foreign ramdump rfl⟩
    · exact keepPartition_moves (.inr (.inl rfl)) ramdump

theorem keepUserdata_moves : Sound (Move e retry)
    (fun s l => In .prepareFs s l ∧ s.partition = none) (keepUserdata e) Kept := by
  have opens : FwState.prepareFs.opens := .inr rfl
  unfold keepUserdata
  refine .read_bind fun a => .attempt_bind ((openPartition_moves opens _ _ True).pre ?_) fun r => ?_
  · rintro s l ⟨rfl, h, empty⟩
    exact ⟨rfl, h, fun _ => empty⟩
  cases r with
  | error err => exact .pure _ fun s l h => ⟨h.inState, fun _ => h.none err rfl trivial⟩
  | ok userdata =>
    exact (keepPartition_moves (.inr (.inr rfl)) userdata).pre fun s l h => h.inState

theorem partition_none {s : St} {c : Cxt} (hc : s.cxt = some c) (h : s.partition = none) :
    c.partitionHdl = none := by
  cases hk : c.partitionHdl with
  | none => rfl
  | some k =>
    unfold St.partition at h
    rw [hc] at h
    simp [hk] at h

theorem prepareFs_moves : Sound (Move e retry) (In .prepareFs) (prepareFs e) Left := by
  have opens : FwState.prepareFs.opens := .inr rfl
  have stop : ∀ err s l, In .prepareFs s l → Left (α := Unit) (.error err) s l :=
    fun err s l h => h.left (by simp)
  unfold prepareFs
  refine .read_bind fun a => ?_
  refine .andThen (K := fun _ s l => In .prepareFs s l) ?_ stop fun fs1 => ?_
  · refine .orFail (((openPartition_moves opens _ _ False).pre ?_).post ?_)
    · rintro s l ⟨rfl, h⟩
      exact ⟨rfl, h, False.elim⟩
    · intro r s l h
      cases r <;> exact h.inState
  refine .andThen (keepPartition_moves (.inl rfl) fs1) (fun err s l h => stop err s l h.1)
    fun _ => ?_
  refine .andThen (keepRamdump_moves.pre fun s l h => ⟨h.1, h.2 rfl⟩)
    (fun err s l h => stop err s l h.1) fun _ => ?_
  refine .andThen (keepUserdata_moves.pre fun s l h => ⟨h.1, h.2 rfl⟩)
    (fun err s l h => stop err s l h.1) fun _ => ?_
  -- the next state holds no partition
  refine (setState_left (by simp)).pre ?_
  rintro s l ⟨⟨c, hc, ctl, state⟩, empty⟩
  have loose := partition_none hc (empty rfl)
  exact ⟨c, hc, ctl, goes_early ctl state rfl (.inr loose) (by simp [FwState.late]) rfl (by simp),
    by simp⟩

end Qapp.Fw
