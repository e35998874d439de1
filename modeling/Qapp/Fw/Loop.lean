import Qapp.Fw.Copy

/-!
# The session loop

Every call of `sessionProcess` is a sequence of moves, whatever it returns.
-/

namespace Qapp.Fw
open ByteMem Traced
open Relation (ReflTransGen)

variable {e : Env} {retry : Bool}

/-! ## The next image of a partial upgrade -/

theorem skipImages_spec (flag : Nat → Bool) (total n i : Nat) (fuel : total ≤ i + n) :
    i ≤ skipImages flag total n i ∧
    (∀ m, i ≤ m → m < skipImages flag total n i → flag m = false) ∧
    (skipImages flag total n i < total → flag (skipImages flag total n i) = true) := by
  induction n generalizing i with
  | zero =>
    refine ⟨Nat.le_refl i, fun m le lt => ?_, fun lt => ?_⟩
    · exact absurd lt (Nat.not_lt.mpr le)
    · exact absurd fuel (Nat.not_le.mpr lt)
  | succ n ih =>
    unfold skipImages
    split
    · rename_i skip
      obtain ⟨le, skipped, stop⟩ := ih (i + 1) (by omega)
      refine ⟨by omega, fun m hm lt => ?_, stop⟩
      rcases Nat.eq_or_lt_of_le hm with rfl | hm
      · simpa using skip.2
      · exact skipped m hm lt
    · rename_i keep
      refine ⟨Nat.le_refl i, fun m le lt => absurd lt (Nat.not_lt.mpr le), fun lt => ?_⟩
      cases hf : flag i with
      | true => rfl
      | false =>
        rw [hf] at keep
        exact absurd ⟨lt, rfl⟩ keep

/-- A partial upgrade between two images. -/
structure Passing (s : St) (c : Cxt) : Prop where
  cxt : s.cxt = some c
  ctl : Ctl s c
  state : c.fwUpgradeState = .prepareConnect
  first : c.isFirst = false

theorem Passing.loose {s : St} {c : Cxt} (h : Passing s c) : c.partitionHdl = none :=
  h.ctl.loose (by rw [h.state]; rfl) (.inl (by rw [h.state]; rintro ⟨⟩))

theorem Passing.format {s : St} {c : Cxt} (h : Passing s c) : c.format = formatPartial := by
  by_contra format
  have := (h.ctl.full format h.first).2
  rw [h.state] at this
  cases this

theorem Passing.moved {s t : St} {c : Cxt} (h : Passing s c) (index : Nat)
    (init : t.fuInitialized = true) (imageHdr : t.imageHdr = s.imageHdr)
    (cxt : t.cxt = some { c with imageIndex := index }) :
    Passing t { c with imageIndex := index } := by
  have ctl := h.ctl
  refine ⟨cxt, ?_, h.state, h.first⟩
  constructor
  · exact init
  · intro k hk
    cases h.loose.symm.trans hk
  · exact ctl.first
  · exact fun first => by cases first.symm.trans h.first
  · exact ctl.loose
  · rw [imageHdr]
    exact ctl.accepted
  · exact ctl.image
  · exact ctl.disconnect
  · intro _ receiving
    change c.fwUpgradeState.receiving = true at receiving
    rw [h.state] at receiving
    cases receiving
  · exact ctl.full
  · exact fun _ held => absurd h.loose held
  · intro late
    change c.fwUpgradeState.late = true at late
    rw [h.state] at late
    cases late
  · exact ctl.dup
  · exact ctl.trial
  · exact ctl.config

theorem Passing.left {s : St} {c : Cxt} (h : Passing s c) (r : Except Status Unit)
    (l : List Event) : Left r s l :=
  In.left (by rintro ⟨⟩) ⟨c, h.cxt, h.ctl, h.state⟩

theorem Passing.quiet {s t : St} {c : Cxt} (h : Passing s c) (q : Quiet s t) : Passing t c :=
  ⟨q.cxt.trans h.cxt, h.ctl.quiet h.cxt q, h.state, h.first⟩

variable (e retry) in
/-- An FS1 image without data: only its partition is created. -/
theorem emptyFs1_moves {s : St} {c : Cxt} (h : Passing s c) (img : ImageHdr)
    (empty : ∀ hdrs hdr, s.imageHdr = some hdrs → hdrs[c.imageIndex]? = some hdr →
      hdr.imageId = fs1ImgId ∧ hdr.imageLength = 0) (fs1 : img.imageId = fs1ImgId) (hist : List Event) (m : M Unit)
    (eq : m = (do
      createFs1 e img
      releasePartition
      updateCxt fun c => { c with
        imageIndex := c.imageIndex + 1
        fwUpgradeState := .prepareConnect })) :
    Moves e retry (s, hist) ((m s).state, hist ++ (m s).trace) ∧
      Left (m s).res (m s).state (hist ++ (m s).trace) := by
  subst eq
  rw [Act.bind_run]
  rcases createFs1_cases e img h.cxt h.ctl with ⟨err, t, run, quiet⟩ |
    ⟨fs2, t, hs, quiet, found, run⟩
  · rw [run, Act.andThen_error, List.append_nil]
    exact ⟨.single (.quiet quiet), (h.quiet quiet).left _ hist⟩
  · have same : c.loosed = c := by
      unfold Cxt.loosed
      rw [← h.loose]
    rw [same] at run
    have held := h.quiet quiet
    have detached : Move e retry (t, hist) (t.hold hs (some c.loosed), hist) :=
      .detach hs held.cxt
    rw [same] at detached
    have here : Passing (t.hold hs (some c)) c :=
      held.moved (t := t.hold hs (some c)) c.imageIndex held.ctl.init rfl rfl
    have imageHdr : (t.hold hs (some c)).imageHdr = s.imageHdr := quiet.imageHdr
    generalize t.hold hs (some c) = u at run detached here imageHdr
    have start : Moves e retry (s, hist) (u, hist) := .tail (.single (.quiet quiet)) detached
    rw [run]
    split
    · rw [Act.andThen_error, List.append_nil]
      exact ⟨start, here.left _ hist⟩
    · rcases newPartition_cases e c.imageIndex img.imageId img.version fs2.imgStart fs2.imgSize
        here.cxt with ⟨err, v, run, reads⟩ | ⟨slot, out, v, bad, entered, run⟩ |
        ⟨slot, k, v, entered, free, run⟩
      · rw [Act.orFail_error run, Act.andThen_error, List.append_nil]
        exact ⟨.tail start (.quiet reads.quiet), (here.quiet reads.quiet).left _ hist⟩
      · rw [Act.orFail_error run, Act.andThen_error]
        have step : Move e retry (u, hist) _ :=
          .noEntry here.cxt (by rw [here.state]; rfl) rfl bad entered
        refine ⟨.tail start step, In.left (by rintro ⟨⟩) ⟨c, ?_, ?_, here.state⟩⟩
        · exact entered.touches.cxt.trans here.cxt
        · exact here.ctl.touches here.cxt entered.touches
      · rw [Act.orFail_ok run, Act.andThen_ok]
        generalize hclient : c.client slot img.imageId img.version fs2.imgStart fs2.imgSize = client
          at run entered
        have step (hs : Nat → Client) : Move e retry (u, hist) ({ v with
            handles := hs, cxt := some { c with imageIndex := c.imageIndex + 1 } },
            hist ++ [.op (.entry c.trialFwdIdx slot) client.entryOp .done,
              .created c.imageIndex client]) := by
          rw [← imageHdr] at empty
          subst hclient
          exact .emptyFs1 hs here.cxt here.state here.loose here.first empty rfl fs1 entered
        have last (hs : Nat → Client) : Passing { v with
            handles := hs, cxt := some { c with imageIndex := c.imageIndex + 1 } }
            { c with imageIndex := c.imageIndex + 1 } := by
          apply here.moved
          · exact (entered.touches.init here.ctl.init).1
          · exact entered.touches.imageHdr
          · rfl
        rw [Act.bind_ok (releasePartition_run (withCxt_cxt _ _)), updateCxt_run rfl,
          List.append_nil]
        have final (hs : Nat → Client) : ({ v with
            handles := hs, cxt := some { c with
              partitionHdl := none, imageIndex := c.imageIndex + 1
              fwUpgradeState := .prepareConnect } } : St) = { v with
            handles := hs, cxt := some { c with imageIndex := c.imageIndex + 1 } } := by
          rw [← here.loose, ← here.state]
        have eq := final (freed (some k) (setHandle k client v).handles)
        have moves := step (freed (some k) (setHandle k client v).handles)
        rw [← eq] at moves
        have left := (last (freed (some k) (setHandle k client v).handles)).left (.ok ())
          (hist ++ [.op (.entry c.trialFwdIdx slot) client.entryOp .done,
            .created c.imageIndex client])
        rw [← eq] at left
        exact ⟨.tail start moves, left⟩

/-- The part of `prepareConnect` after the images that are not downloaded. -/
def connectNext (e : Env) (p : Packet) : M Unit := do
  let c ← getCxt
  let img ← readImageHdr p c.imageIndex
  if img.imageId = fs1ImgId ∧ img.imageLength = 0 then
    createFs1 e img
    releasePartition
    updateCxt fun c => { c with
      imageIndex := c.imageIndex + 1
      fwUpgradeState := .prepareConnect }
  else if c.totalImages ≤ c.imageIndex then setState .duplicateImages
  else setState .connect

variable (e retry) in
theorem connectNext_moves (p : Packet) {s : St} {c : Cxt} (h : Passing s c)
    (stop : c.imageIndex < c.totalImages → c.downloadFlag c.imageIndex = true)
    (hist : List Event) : Moves e retry (s, hist) ((connectNext e p s).state,
        hist ++ (connectNext e p s).trace) ∧
      Left (connectNext e p s).res (connectNext e p s).state
        (hist ++ (connectNext e p s).trace) := by
  have hc := h.cxt
  obtain ⟨hdrs, imageHdr, len⟩ := h.ctl.accepted h.first
  have goes {x : FwState} (not : x.early = false ∧ x ≠ .receiveData ∧ x ≠ .processImage ∧
      x ≠ .disconnectServer ∧ x.erased = true ∧ x ≠ .eraseFwd)
      (current : x.receiving = true → c.imageIndex < c.totalImages)
      (late : x.late = true → c.totalImages ≤ c.imageIndex) : Goes c x := by
    obtain ⟨early, noData, noImage, noServer, erased, noErase⟩ := not
    constructor
    · intro hx
      rw [early] at hx
      cases hx
    · exact fun _ _ => h.loose
    · exact fun hx => absurd hx noImage
    · exact fun hx => absurd hx noServer
    · exact fun _ receiving => ⟨current receiving, stop (current receiving)⟩
    · exact fun format => absurd h.format format
    · exact fun hl => ⟨h.first, late hl⟩
    · exact fun _ => h.ctl.dup (by rw [h.state]; rfl)
    · rw [erased, h.state]
      rfl
    · exact fun hx => absurd hx noErase
    · rw [h.state]
      exact Nat.zero_le _
  unfold connectNext
  rw [Act.bind_ok (getCxt_run hc)]
  have note : Move e retry (s, hist) (s, hist ++ [.note (.header c.imageIndex (s.hasImageHdr c.imageIndex))]) := .note _
  have run : readImageHdr p c.imageIndex s = ⟨.ok ((s.imageHdr.getD []).getD c.imageIndex
      (p.wild c.imageIndex)), s, [.note (.header c.imageIndex (s.hasImageHdr c.imageIndex))]⟩ := rfl
  rw [Act.bind_run, run, Act.andThen_ok, ← List.append_assoc]
  generalize hist ++ [.note (.header c.imageIndex (s.hasImageHdr c.imageIndex))] = l at note
  have at_index : ∀ hdrs' hdr, s.imageHdr = some hdrs' → hdrs'[c.imageIndex]? = some hdr →
      (s.imageHdr.getD []).getD c.imageIndex (p.wild c.imageIndex) = hdr := by
    intro hdrs' hdr h₁ h₂
    rw [h₁, Option.getD_some, List.getD_eq_getElem?_getD, h₂, Option.getD_some]
  generalize (s.imageHdr.getD []).getD c.imageIndex (p.wild c.imageIndex) = img at at_index
  rw [Act.ite_run]
  split
  · rename_i fs1
    have empty : ∀ hdrs hdr, s.imageHdr = some hdrs → hdrs[c.imageIndex]? = some hdr →
        hdr.imageId = fs1ImgId ∧ hdr.imageLength = 0 := by
      intro hdrs' hdr h₁ h₂
      rw [← at_index hdrs' hdr h₁ h₂]
      exact fs1
    obtain ⟨moves, left⟩ := emptyFs1_moves e retry h img empty fs1.1 l _ rfl
    exact ⟨.head note moves, left⟩
  · rw [Act.ite_run]
    split
    · rename_i le
      have can : CanGo .duplicateImages s l :=
        ⟨c, hc, h.ctl, goes (by simp [FwState.early, FwState.erased]) (by rintro ⟨⟩) fun _ => le,
          by rintro ⟨⟩⟩
      obtain ⟨moves, ok, d, hd, ctl, state⟩ := setState_moves s l can
      refine ⟨.head note moves, .of_ctl hd ctl, fun _ _ => .of_ne hd fun _ => ?_⟩
      have here : (setState .duplicateImages s).state.cxt =
          some { c with fwUpgradeState := .duplicateImages } := by
        unfold setState
        rw [updateCxt_run hc]
        rfl
      rw [here] at hd
      cases hd
      exact h.ctl.dup (by rw [h.state]; rfl)
    · rename_i lt
      have can : CanGo .connect s l :=
        ⟨c, hc, h.ctl, goes (by simp [FwState.early, FwState.erased])
          (fun _ => Nat.not_le.mp lt) (by rintro ⟨⟩), by rintro ⟨⟩⟩
      obtain ⟨moves, left⟩ := setState_left (by rintro ⟨⟩) s l can
      exact ⟨.head note moves, left⟩

theorem prepareConnect_moves (p : Packet) :
    Sound (Move e retry) (In .prepareConnect) (prepareConnect e p) Left := by
  rintro s hist ⟨c, hc, ctl, state⟩
  unfold prepareConnect
  rw [Act.bind_ok (getCxt_run hc), Act.ite_run]
  split
  · rename_i first
    have loose := ctl.loose (by rw [state]; rfl) (.inl (by rw [state]; rintro ⟨⟩))
    have goes : Goes c .connect :=
      ⟨by rintro ⟨⟩, fun _ _ => loose, by rintro ⟨⟩, by rintro ⟨⟩,
        fun hf => (by cases hf.symm.trans first), fun _ hf => (by cases hf.symm.trans first),
        by rintro ⟨⟩, fun _ => ctl.dup (by rw [state]; rfl), by rw [state]; rfl, by rintro ⟨⟩,
        by rw [state]; exact Nat.zero_le _⟩
    exact setState_left (by rintro ⟨⟩) s hist ⟨c, hc, ctl, goes, by rintro ⟨⟩⟩
  · rename_i first
    have h : Passing s c := ⟨hc, ctl, state, by simpa using first⟩
    obtain ⟨le, skipped, stop⟩ := skipImages_spec c.downloadFlag c.totalImages c.totalImages
      c.imageIndex (by omega)
    rw [Act.bind_ok (updateCxt_run hc _)]
    generalize skipImages c.downloadFlag c.totalImages c.totalImages c.imageIndex = index
      at le skipped stop
    have skip : Move e retry (s, hist) (s.withCxt { c with imageIndex := index }, hist) :=
      .skipTo index hc state h.loose le skipped
    have next : Passing (s.withCxt { c with imageIndex := index }) { c with imageIndex := index } :=
      h.moved index ctl.init rfl rfl
    obtain ⟨moves, left⟩ := connectNext_moves e retry p next stop hist
    exact ⟨.head skip moves, left⟩

/-! ## The end of a session -/

theorem setSblTrialFde_cases (e : Env) (i version : Nat) (s : St) :
    (∃ err, setSblTrialFde i version s = ⟨.error err, s, []⟩) ∨
    ∃ bytes out t, setSblTrialFde i version s =
        ⟨out.res, t, [.op (.fde i) (.rramWrite (fdeAddr i) bytes) out]⟩ ∧
      Possible e s (.rramWrite (fdeAddr i) bytes) out ∧
      Ran s (.rramWrite (fdeAddr i) bytes) out t := by
  unfold setSblTrialFde
  rw [Act.bind_ok (Act.read_run s)]
  simp only [Act.ite_run]
  split
  · exact .inl ⟨_, rfl⟩
  · split
    · exact .inl ⟨_, rfl⟩
    · obtain ⟨out, t, run, possible, ran⟩ := rramWrite_cases e (.fde i) (fdeAddr i)
        (fdeUpdated s.rram i fdeRankTrial fdeStateNew version) s
      exact .inr ⟨_, out, t, run, possible, ran⟩

variable (e retry) in
theorem updateSblFde_moves (c : Cxt) : Sound (Move e retry)
    (fun s l => s.cxt = some c ∧ In .finish s l) (updateSblFde e c)
    fun _ s l => In .finish s l := by
  rintro s hist ⟨hc, c', hc', ctl, state⟩
  cases hc.symm.trans hc'
  have loose := ctl.loose (by rw [state]; rfl) (.inl (by rw [state]; rintro ⟨⟩))
  unfold updateSblFde
  rcases findPartition_cases e c.trialFwdIdx sblImgId s with ⟨err, t, run, reads⟩ |
    ⟨k, client, t, run, reads, free, found⟩
  · simp only [Act.attempt_bind_run run, Act.pure_run, List.append_nil]
    have quiet := reads.quiet
    exact ⟨.single (.quiet quiet), c, quiet.cxt.trans hc, ctl.quiet hc quiet, state⟩
  · have away : Loose k t := by
      intro d hd
      rw [reads.cxt, hc] at hd
      cases hd
      rw [loose]
      rintro ⟨⟩
    have quiet := reads.quiet.trans (quiet_setHandle away client)
    have ctl := ctl.quiet hc quiet
    have hct := quiet.cxt.trans hc
    simp only [Act.attempt_bind_run run, Act.bind_ok (Act.read_run _), List.nil_append]
    generalize setHandle k client t = u at quiet ctl hct
    rcases setSblTrialFde_cases e c.trialSblIdx (u.handles k).imgVersion u with ⟨err, run⟩ |
      ⟨bytes, out, v, run, possible, ran⟩
    · simp only [Act.attempt_bind_run run, Act.pure_run, List.append_nil]
      exact ⟨.single (.quiet quiet), c, hct, ctl, state⟩
    · simp only [Act.attempt_bind_run run, Act.pure_run, List.append_nil]
      have touches : Touches e (fun _ _ _ => True) u [.op (.fde c.trialSblIdx)
        (.rramWrite (fdeAddr c.trialSblIdx) bytes) out] v := .op trivial possible ran
      exact ⟨.head (.quiet quiet) (.single (.fde hct state possible ran)), c,
        touches.cxt.trans hct, ctl.touches hct touches, state⟩

theorem closeSession_moves {P : St → List Event → Prop} : Sound (Move e retry) P (do
    sessionFin true
    Act.when (sessionFlags % 2 = 1) (Act.emit .reset)) Left := by
  have none {r : Except Status Unit} {s : St} {l : List Event} (h : s.cxt = none) : Left r s l :=
    ⟨fun c hc => (by cases h.symm.trans hc), fun _ _ c hc => (by cases h.symm.trans hc)⟩
  refine .andThen (sessionFin_moves true (Q := fun _ s _ => s.cxt = .none) fun _ _ _ _ _ => rfl)
    (fun err s l h => none h) fun _ => ?_
  exact .emit (fun _ _ _ => .single .reset) fun s l h => none h

theorem sessionFinalize_moves :
    Sound (Move e retry) (In .finish) (sessionFinalize e) Left := by
  rintro s hist ⟨c, hc, ctl, state⟩
  unfold sessionFinalize
  rw [Act.bind_ok (getCxt_run hc)]
  have lt := ctl.trial (.inr (by rw [state]; rfl))
  obtain ⟨out, t, run, possible, ran⟩ := setFwdInfo_run e lt .status statusValid ctl.init
  have touches : Touches e (fun _ _ _ => True) s [.op (.info c.trialFwdIdx .status)
      (.write (fwdAddr c.trialFwdIdx + FwdInfo.offset .status)
        (leBytes (FwdInfo.size .status) statusValid)) out] t := .op trivial possible ran
  have validated : Move e retry (s, hist) _ := .validate hc state lt possible ran
  have inside : In .finish t (hist ++ [.op (.info c.trialFwdIdx .status)
      (.write (fwdAddr c.trialFwdIdx + FwdInfo.offset .status)
        (leBytes (FwdInfo.size .status) statusValid)) out]) :=
    ⟨c, touches.cxt.trans hc, ctl.touches hc touches, state⟩
  obtain ⟨moves, left⟩ := Sound.andThen (updateSblFde_moves e retry c)
    (fun err s l h => In.left (by rintro ⟨⟩) h) (fun _ => closeSession_moves) t _
    ⟨touches.cxt.trans hc, inside⟩
  simp only [Act.attempt_bind_run run, ← List.append_assoc]
  exact ⟨.head validated moves, left⟩

/-! ## The loop -/

/-- What one pass of the loop starts from. -/
def Enterable (retry : Bool) (s : St) (_ : List Event) : Prop :=
  Good s ∧ (retry = true ∨ NotBegun s)

theorem left_pure {β : Type} {P : St → List Event → Prop} {m : M Unit}
    (h : Sound (Move e retry) P m Left) (b : β) :
    Sound (Move e retry) P (do
      m
      pure b) Left :=
  .andThen h (fun _ _ _ left => ⟨left.1, fun _ ok => (by cases ok)⟩) fun _ =>
    .pure b fun _ _ left => ⟨left.1, fun _ _ => left.2 () rfl⟩

/-- The states that only set the next one. -/
theorem pass_on {s : St} {c : Cxt} (hc : s.cxt = some c) (ctl : Ctl s c) {x : FwState}
    (ne : x ≠ .duplicateImages) (noImage : x ≠ .processImage) (goes : Goes c x) (buffer : Buffer)
    (hist : List Event) (m : M (Option Buffer)) (eq : m = do
      setState x
      pure (some buffer)) :
    Moves e retry (s, hist) ((m s).state, hist ++ (m s).trace) ∧
      Left (m s).res (m s).state (hist ++ (m s).trace) := by
  subst eq
  exact left_pure (setState_left ne) (some buffer) s hist
    ⟨c, hc, ctl, goes, fun hx => absurd hx noImage⟩

theorem goes_late {s : St} {c : Cxt} {x y : FwState} (ctl : Ctl s c) (hx : c.fwUpgradeState = x)
    (late : x.late = true) (hy : y = .duplicateFs ∨ y = .finish) (onward : x.phase ≤ y.phase) :
    Goes c y := by
  have loose : c.partitionHdl = none := by
    apply ctl.loose
    · rw [hx]
      cases x <;> first | rfl | cases late
    · left
      rw [hx]
      rintro rfl
      cases late
  have done := ctl.late (hx ▸ late)
  have erased : c.fwUpgradeState.erased = true := by
    rw [hx]
    cases x <;> first | rfl | cases late
  rcases hy with rfl | rfl
  · exact ⟨by rintro ⟨⟩, fun _ _ => loose, by rintro ⟨⟩, by rintro ⟨⟩, by rintro _ ⟨⟩,
      fun _ _ => rfl, fun _ => done, by rintro ⟨⟩, erased.symm, by rintro ⟨⟩, hx ▸ onward⟩
  · exact ⟨by rintro ⟨⟩, fun _ _ => loose, by rintro ⟨⟩, by rintro ⟨⟩, by rintro _ ⟨⟩,
      fun _ _ => rfl, fun _ => done, by rintro ⟨⟩, erased.symm, by rintro ⟨⟩, hx ▸ onward⟩

/-- Going on to `DUPLICATE_FS` or `FINISH` after a copy. -/
theorem goOn_moves {x y : FwState} (late : x.late = true) (hy : y = .duplicateFs ∨ y = .finish)
    (onward : x.phase ≤ y.phase) (buffer : Buffer) : Sound (Move e retry) (In x) (do
      setState y
      pure (some buffer) : M (Option Buffer)) Left := by
  rintro s l ⟨c, hc, ctl, state⟩
  apply pass_on hc ctl _ _ (goes_late ctl state late hy onward) buffer l _ rfl
  · rcases hy with rfl | rfl <;> rintro ⟨⟩
  · rcases hy with rfl | rfl <;> rintro ⟨⟩

theorem AfterData.left {s : St} {l : List Event} (h : AfterData s l) {α : Type}
    (r : Except Status α) : Left r s l := by
  rcases h with h | h | h
  · exact h.left (by rintro ⟨⟩)
  · exact h.left (by rintro ⟨⟩)
  · exact h.left (by rintro ⟨⟩)

/-- After the data of a packet the session waits for more. -/
theorem receiveMore_moves (buffer : Buffer) : Sound (Move e retry) AfterData (do
    let c ← getCxt
    Act.when (c.fwUpgradeState = .processImage) (setState .receiveData)
    pure (some buffer) : M (Option Buffer)) Left := by
  intro s l h
  obtain ⟨c, hc, ctl⟩ : ∃ c, s.cxt = some c ∧ Ctl s c := by
    rcases h with ⟨c, hc, ctl, -⟩ | ⟨c, hc, ctl, -⟩ | ⟨c, hc, ctl, -⟩ <;> exact ⟨c, hc, ctl⟩
  rw [Act.bind_ok (getCxt_run hc)]
  by_cases state : c.fwUpgradeState = .processImage
  · rw [Act.when_pos state]
    have first := (ctl.image state).1
    have goes : Goes c .receiveData :=
      ⟨by rintro ⟨⟩, fun _ no => (by
          rcases no with no | no
          · exact absurd rfl no
          · cases no.symm.trans first), by rintro ⟨⟩, by rintro ⟨⟩,
        fun hf _ => ctl.current hf (by rw [state]; rfl), fun _ _ => rfl, by rintro ⟨⟩,
        fun _ => ctl.dup (by rw [state]; rfl), by rw [state]; rfl, by rintro ⟨⟩,
        by rw [state]; exact Nat.zero_le _⟩
    exact pass_on hc ctl (by rintro ⟨⟩) (by rintro ⟨⟩) goes buffer l _ rfl
  · rw [Act.when_neg state, Act.bind_ok (Act.pure_run () s), Act.pure_run, List.append_nil]
    exact ⟨.refl, h.left _⟩

/-- A packet is started. -/
theorem takePacket_moves (p : Packet) {s : St} {c : Cxt} (hc : s.cxt = some c) (ctl : Ctl s c)
    (state : c.fwUpgradeState = .receiveData) (pos : p.len - c.bufOffset ≠ 0) (hist : List Event) :
    Moves e retry (s, hist) (s.withCxt { c with
        bufLen := p.len - c.bufOffset, bufOffset := 0,
        fwUpgradeState := if c.isFirst then .processConfigFile else .processImage }, hist) ∧
      Left (.ok (some (some c.bufOffset)) : Except Status (Option Buffer)) (s.withCxt { c with
        bufLen := p.len - c.bufOffset, bufOffset := 0,
        fwUpgradeState := if c.isFirst then .processConfigFile else .processImage }) hist := by
  have dup := ctl.dup (by rw [state]; rfl)
  generalize hx : (if c.isFirst = true then FwState.processConfigFile else .processImage) = x
  have which : c.isFirst = true ∧ x = .processConfigFile ∨ c.isFirst = false ∧ x = .processImage := by
    cases first : c.isFirst with
    | true =>
      rw [if_pos first] at hx
      exact .inl ⟨rfl, hx.symm⟩
    | false =>
      rw [if_neg (by rw [first]; decide)] at hx
      exact .inr ⟨rfl, hx.symm⟩
  rcases which with ⟨first, rfl⟩ | ⟨first, rfl⟩
  · have goes : Goes c .processConfigFile :=
      ⟨fun _ => first, fun _ _ => ctl.loose (by rw [state]; rfl) (.inr first), by rintro ⟨⟩,
        by rintro ⟨⟩, by rintro _ ⟨⟩, fun _ _ => rfl, by rintro ⟨⟩, fun _ => dup,
        by rw [state]; rfl, by rintro ⟨⟩, by rw [state]; exact Nat.zero_le _⟩
    refine ⟨moves_tune hc rfl goes.edge, In.left (x := .processConfigFile) (by rintro ⟨⟩)
      ⟨_, rfl, ?_, rfl⟩⟩
    exact ctl.steer goes _ 0 _ _ (by rintro ⟨⟩) ctl.config
  · have goes : Goes c .processImage :=
      ⟨by rintro ⟨⟩, by rintro ⟨⟩, fun _ => first, by rintro ⟨⟩,
        fun hf _ => ctl.current hf (by rw [state]; rfl), fun _ _ => rfl, by rintro ⟨⟩,
        fun _ => dup, by rw [state]; rfl, by rintro ⟨⟩, by rw [state]; exact Nat.zero_le _⟩
    refine ⟨moves_tune hc rfl goes.edge, In.left (x := .processImage) (by rintro ⟨⟩)
      ⟨_, rfl, ?_, rfl⟩⟩
    exact ctl.steer goes _ 0 _ _ (fun _ => Nat.pos_of_ne_zero pos) ctl.config

/-- One pass, in each of the states. -/
theorem sessionStep_moves (p : Packet) (buffer : Buffer) :
    Sound (Move e retry) (Enterable retry) (sessionStep e p buffer) Left := by
  rintro s hist ⟨good, again⟩
  unfold sessionStep
  cases hc : s.cxt with
  | none =>
    rw [Act.bind_run, getCxt_none hc, Act.andThen_error, List.append_nil]
    exact ⟨.refl, good, fun _ ok => by cases ok⟩
  | some c =>
    have ctl := good c hc
    rw [Act.bind_ok (getCxt_run hc)]
    have inside (x : FwState) (hx : c.fwUpgradeState = x) : In x s hist := ⟨c, hc, ctl, hx⟩
    cases state : c.fwUpgradeState with
    | notStart =>
      apply pass_on hc ctl (by rintro ⟨⟩) (by rintro ⟨⟩) _ buffer hist _ rfl
      exact goes_early ctl state rfl (.inl rfl) (by simp [FwState.late]) rfl (by rintro ⟨⟩)
    | getTrialInfo =>
      exact left_pure getTrialInfo_moves (some buffer) s hist (inside _ state)
    | eraseFwd =>
      have step := left_pure (eraseFwd_moves e retry c) (some buffer) s hist
        ⟨hc, inside _ state⟩
      rw [Act.bind_assoc] at step
      exact step
    | eraseSecondFs =>
      exact left_pure eraseSecondFs_moves (some buffer) s hist (inside _ state)
    | prepareFs => exact left_pure prepareFs_moves (some buffer) s hist (inside _ state)
    | prepareConnect =>
      exact left_pure (prepareConnect_moves p) (some buffer) s hist (inside _ state)
    | connect =>
      have loose := ctl.loose (by rw [state]; rfl) (.inl (by rw [state]; rintro ⟨⟩))
      apply pass_on hc ctl (by rintro ⟨⟩) (by rintro ⟨⟩) _ buffer hist _ rfl
      exact ⟨by rintro ⟨⟩, fun _ _ => loose, by rintro ⟨⟩, by rintro ⟨⟩,
        fun first _ => ctl.current first (by rw [state]; rfl), fun _ _ => rfl, by rintro ⟨⟩,
        fun _ => ctl.dup (by rw [state]; rfl), by rw [state]; rfl, by rintro ⟨⟩,
        by rw [state]; exact Nat.zero_le _⟩
    | receiveData =>
      simp only [Act.ite_run]
      split
      · rw [Act.pure_run, List.append_nil]
        exact ⟨.refl, good, fun _ _ => .of_ne hc fun h => by rw [state] at h; cases h⟩
      · rename_i pos
        rw [Act.bind_ok (updateCxt_run hc _), Act.pure_run, List.append_nil]
        exact takePacket_moves p hc ctl state pos hist
    | processConfigFile =>
      have notes : ∀ n, ∃ m, Buffer.note buffer n = .note m := by
        cases buffer <;> exact fun n => ⟨_, rfl⟩
      exact left_pure (processConfigFile_moves (p.buffer buffer) notes) (some buffer) s hist
        (inside _ state)
    | processImage =>
      exact Sound.andThen (processReceiveImage_moves p _) (fun _ _ _ h => h.left _)
        (fun _ => receiveMore_moves buffer) s hist (inside _ state)
    | disconnectServer =>
      have loose := ctl.loose (by rw [state]; rfl) (.inl (by rw [state]; rintro ⟨⟩))
      have first := ctl.disconnect state
      apply pass_on hc ctl (by rintro ⟨⟩) (by rintro ⟨⟩) _ buffer hist _ rfl
      refine ⟨by rintro ⟨⟩, fun _ _ => loose, by rintro ⟨⟩, by rintro ⟨⟩, by rintro _ ⟨⟩,
        fun format _ => ?_, by rintro ⟨⟩, fun _ => ctl.dup (by rw [state]; rfl),
        by rw [state]; rfl, by rintro ⟨⟩, by rw [state]; exact Nat.zero_le _⟩
      have only := (ctl.full format first).2
      rw [state] at only
      cases only
    | duplicateImages =>
      exact Sound.andThen processDuplicateImages_moves
        (fun _ _ _ h => ⟨h.good, fun _ ok => by cases ok⟩) (fun _ => goOn_moves rfl (.inl rfl) (by decide) buffer)
        s hist ⟨inside _ state, again⟩
    | duplicateFs =>
      exact Sound.andThen (Sound.when (fun _ => processDuplicateFs_moves) fun _ _ _ h => h)
        (fun _ _ _ h => In.left (by rintro ⟨⟩) h) (fun _ => goOn_moves rfl (.inr rfl) (by decide) buffer)
        s hist (inside _ state)
    | finish =>
      exact left_pure sessionFinalize_moves none s hist (inside _ state)

/-- The session loop keeps making moves as long as it runs. -/
theorem sessionLoop_moves (p : Packet) (fuel : Nat) (buffer : Buffer) :
    Sound (Move e retry) (Enterable retry) (sessionLoop e p fuel buffer) fun _ s _ => Good s := by
  induction fuel generalizing buffer with
  | zero => exact .pure false fun s l h => h.1
  | succ fuel ih =>
    unfold sessionLoop
    intro s hist h
    cases hc : s.cxt with
    | none =>
      rw [Act.bind_run, getCxt_none hc, Act.andThen_error, List.append_nil]
      exact ⟨.refl, h.1⟩
    | some c =>
      rw [Act.bind_ok (getCxt_run hc), Act.ite_run]
      split
      · refine Sound.andThen (Q := fun _ s _ => Good s) (sessionStep_moves p buffer)
          (fun err s l left => left.1) (fun next => ?_) s hist h
        cases next with
        | none => exact .pure true fun s l left => left.1
        | some buffer => exact (ih buffer).pre fun s l left => ⟨left.1, .inr (left.2 _ rfl)⟩
      · rw [Act.pure_run, List.append_nil]
        exact ⟨.refl, h.1⟩

theorem rewindPacket_moves : Sound (Move e retry) (Enterable retry) (do
    let _ ← getCxt
    updateCxt fun c => { c with bufOffset := 0 }) fun _ s l => Enterable retry s l := by
  intro s hist h
  cases hc : s.cxt with
  | none =>
    rw [Act.bind_run, getCxt_none hc, Act.andThen_error, List.append_nil]
    exact ⟨.refl, h⟩
  | some c =>
    rw [Act.bind_ok (getCxt_run hc), updateCxt_run hc, List.append_nil]
    refine ⟨moves_tune hc rfl (.refl c), .of_ctl rfl { h.1 c hc with }, ?_⟩
    exact h.2.imp_right fun notBegun => .of_ne rfl (notBegun c hc)

/-- `sessionProcess` once the session is there. -/
theorem passPacket_moves (fuel : Nat) (p : Packet) : Sound (Move e retry) (Enterable retry) (do
    let _ ← getCxt
    updateCxt fun c => { c with bufOffset := 0 }
    sessionLoop e p fuel none) fun _ s _ => Good s := by
  have := Sound.andThen (@rewindPacket_moves e retry)
    (Q := fun _ s _ => Good s) (fun err s l h => h.1) fun _ => sessionLoop_moves p fuel none
  rw [Act.bind_assoc] at this
  exact this

end Qapp.Fw
