import Qapp.Fw.Blind
import Qapp.Fw.Calls

/-!
# Reads stay within the packet

`buf_len` outlives the call it was set in. A call that takes up a state that reads the
packet uses the length of an earlier one, until RECEIVE_DATA sets it.
-/

namespace Qapp.Fw
open ByteMem Traced

/-- Every byte of the packet that is read lies below `len`, and none is read through NULL. -/
def Event.InBounds (len : Nat) : Event → Prop
  | .note (.packet offset size) => ∀ i < size, offset + i < len
  | .note (.nullBuffer size) => size = 0
  | _ => True

/-- As long as `buf_len` is at most `b`, reads are in bounds and it stays so; the header is
not asked for anew. -/
structure Bounded (b len : Nat) (s : St) (l : List Event) (t : St) : Prop where
  reads : ∀ w ∈ l, w.InBounds len
  length : ∀ d, t.cxt = some d → d.bufLen ≤ b
  header : ∀ d, t.cxt = some d → d.fwUpgradeState = .processConfigFile →
    ∃ c, s.cxt = some c ∧ c.fwUpgradeState = .processConfigFile

def bounded (b len : Nat) : Frame St Event where
  rel s l t := (∀ c, s.cxt = some c → c.bufLen ≤ b) → Bounded b len s l t
  refl s := fun length =>
    ⟨fun _ mem => absurd mem List.not_mem_nil, length, fun d hd state => ⟨d, hd, state⟩⟩
  trans := by
    intro s t u l k first second length
    have h := first length
    have h' := second h.length
    constructor
    · intro w mem
      exact (List.mem_append.mp mem).elim (h.reads w) (h'.reads w)
    · exact h'.length
    · intro d hd state
      obtain ⟨c, hc, state⟩ := h'.header d hd state
      exact h.header c hc state

variable {e : Env} {b len : Nat}

/-- Like `unread`, with the header array. -/
def looking : Scope Nat where
  event w := !w.reads
  keeps _ c := c.bufLen
  enters x := !x.consumes
  ends := true

theorem blind_looking {α : Type} {m : M α} (h : Blind m) : Within looking.frame m :=
  Scope.widen (S := unread) (T := looking) (fun _ hidden => (Bool.and_eq_true_iff.mp hidden).1)
    (fun _ _ _ _ same => same) (fun _ idle => idle) (fun never => nomatch never) h

theorem readImageHdr_looking (p : Packet) (i : Nat) : Within looking.frame (readImageHdr p i) :=
  .bind .read fun _ => .bind (Scope.emit rfl) fun _ => .pure _

theorem prepareConnect_looking (e : Env) (p : Packet) : Within looking.frame (prepareConnect e p) :=
  .bind Scope.getCxt fun _ => .ite (blind_looking (setState_blind rfl)) <|
    .bind (blind_looking (blind_tune (fun _ => rfl) fun _ => rfl)) fun _ =>
      .bind Scope.getCxt fun _ => .bind (readImageHdr_looking ..) fun _ => .ite
        (.bind (blind_looking (Blind.of (createFs1_steady ..))) fun _ =>
          .bind (blind_looking (Blind.of releasePartition_steady)) fun _ =>
            Scope.updateCxt (fun _ _ => rfl) fun _ => .inr rfl)
        (.ite (blind_looking (setState_blind rfl)) (blind_looking (setState_blind rfl)))

theorem Event.inBounds_of_silent {w : Event} (silent : (!w.reads) = true) : w.InBounds len := by
  cases w with
  | note n =>
    cases n with
    | packet | nullBuffer => cases silent
    | alloc | denied | free | nullContext | header => trivial
  | op | start | selected | hashed | images | created | reset => trivial

theorem looking_bounded {α : Type} {m : M α} (h : Within looking.frame m) :
    Within (bounded b len) m := by
  constructor
  intro s length
  obtain ⟨silent, cxt⟩ := h.run s
  constructor
  · exact fun w mem => Event.inBounds_of_silent (silent w mem)
  · intro d hd
    obtain ⟨c, hc, same, _⟩ := cxt d hd
    have kept : d.bufLen = c.bufLen := same
    rw [kept]
    exact length c hc
  · intro d hd state
    obtain ⟨c, hc, _, same | idle⟩ := cxt d hd
    · exact ⟨c, hc, same.symm.trans state⟩
    · rw [state] at idle
      cases idle

theorem blind_bounded {α : Type} {m : M α} (h : Blind m) : Within (bounded b len) m :=
  looking_bounded (blind_looking h)

theorem steady_bounded {α : Type} {m : M α} (h : Steady m) : Within (bounded b len) m :=
  blind_bounded (.of h)

theorem bounded_emit {w : Event} (inBounds : w.InBounds len) :
    Within (bounded b len) (Act.emit w : M Unit) :=
  .emit fun _ length => ⟨fun _ mem => List.mem_singleton.mp mem ▸ inBounds, length,
    fun d hd state => ⟨d, hd, state⟩⟩

theorem bounded_updateCxt {f : Cxt → Cxt} (kept : ∀ c, (f c).bufLen = c.bufLen)
    (state : ∀ c, (f c).fwUpgradeState = .processConfigFile →
      c.fwUpgradeState = .processConfigFile) : Within (bounded b len) (updateCxt f) := by
  apply Within.update
  intro s length
  apply Bounded.mk fun _ mem => absurd mem List.not_mem_nil
  · intro d hd
    obtain ⟨c, hc, rfl⟩ := Option.map_eq_some_iff.mp hd
    rw [kept]
    exact length c hc
  · intro d hd header
    obtain ⟨c, hc, rfl⟩ := Option.map_eq_some_iff.mp hd
    exact ⟨c, hc, state c header⟩

/-- What reads the context may rely on its length. -/
theorem bounded_getCxt {α : Type} {f : Cxt → M α}
    (rest : ∀ c, c.bufLen ≤ b → Within (bounded b len) (f c)) :
    Within (bounded b len) (getCxt >>= f) := by
  constructor
  intro s length
  cases hc : s.cxt with
  | none =>
    rw [Act.bind_run, getCxt_none hc, Act.andThen_error]
    exact (Fw.bounded b len).refl s length
  | some c =>
    rw [Act.bind_ok (getCxt_run hc)]
    exact (rest c (length c hc)).run s length

/-! ## The header and the images -/

theorem inBounds_buffer {offset n : Nat} (fits : offset + n ≤ len) :
    (Buffer.note (some offset) n).InBounds len := by
  intro i lt
  omega

theorem receiveConfigFile_bounded {offset : Nat} (fits : offset + b ≤ len) (buf : Mem) :
    Within (bounded b len) (receiveConfigFile buf (Buffer.note (some offset))) := by
  apply bounded_getCxt
  intro c length
  have some_bytes (n : Nat) : offset + min c.bufLen n ≤ len := by omega
  cases c.configBuf with
  | none =>
    dsimp only
    split
    · exact .fail _
    · rename_i enough
      refine .bind (bounded_emit (inBounds_buffer (by omega))) fun _ => ?_
      refine .ite (.fail _) (.ite (.fail _) ?_)
      refine .bind (blind_bounded (blind_tune (fun _ => rfl) fun _ => rfl)) fun _ => ?_
      refine .ite (.fail _) (.bind (steady_bounded (malloc_steady _)) fun _ => .ite (.fail _) ?_)
      refine .bind (bounded_emit (inBounds_buffer (some_bytes _))) fun _ => ?_
      refine .bind (blind_bounded (blind_tune (fun _ => rfl) fun _ => rfl)) fun _ => ?_
      refine .ite (.bind (blind_bounded (blind_tune (fun _ => rfl) fun _ => rfl)) fun _ => ?_)
        (.pure _)
      exact .bind (blind_bounded (setState_blind rfl)) fun _ => .pure _
  | some h =>
    refine .bind (bounded_emit (inBounds_buffer (some_bytes _))) fun _ => ?_
    refine .bind (blind_bounded (blind_tune (fun _ => rfl) fun _ => rfl)) fun _ => ?_
    exact .ite (.bind (blind_bounded (setState_blind rfl)) fun _ => .pure _) (.pure _)

theorem acceptConfigFile_bounded (e : Env) (h : List UInt8) :
    Within (bounded b len) (acceptConfigFile e h) := by
  have tune {f : Cxt → Cxt} (kept : ∀ c, (f c).bufLen = c.bufLen)
      (state : ∀ c, (f c).fwUpgradeState = c.fwUpgradeState) : Within (bounded b len) (updateCxt f) :=
    blind_bounded (blind_tune kept state)
  refine .bind (tune (fun _ => rfl) fun _ => rfl) fun _ => ?_
  refine .bind (bounded_emit trivial) fun _ => .ite (.fail _) ?_
  refine .bind (.orFail (steady_bounded (writeFwdHeader_steady e h)) _) fun _ => ?_
  refine .bind (tune (fun _ => rfl) fun _ => rfl) fun _ => ?_
  refine .bind (steady_bounded (malloc_steady _)) fun _ => ?_
  refine .ite (.bind (blind_bounded (blind_update fun _ => rfl)) fun _ => .fail _) ?_
  refine .bind (blind_bounded (blind_update fun _ => rfl)) fun _ => ?_
  cases (checkEntries (parseImageHdrs (hdrNumImages h) (h.drop hdrPart1Len))
    ⟨0, 0, false, false, 0⟩).2 with
  | none => exact .fail _
  | some a =>
    refine .bind (steady_bounded (checkSums_steady a)) fun _ => ?_
    refine .bind (blind_bounded dropConfigBuf_blind) fun _ => bounded_getCxt fun c _ => .ite ?_ ?_
    · refine .bind (bounded_updateCxt (fun _ => rfl) fun c state => ?_) fun _ => bounded_emit trivial
      dsimp only at state
      split at state <;> cases state
    · refine .bind (steady_bounded (malloc_steady _)) fun _ => .ite (.fail _) (.bind .read fun _ => ?_)
      refine .bind (blind_bounded (checkDownload_blind ..)) fun _ => ?_
      refine .bind (steady_bounded (free_steady _)) fun _ => bounded_getCxt fun c _ => ?_
      exact .bind (blind_bounded (blind_updateCxt (fun _ => rfl) fun _ => .inr rfl)) fun _ =>
        bounded_emit trivial

theorem processConfigFile_bounded {offset : Nat} (fits : offset + b ≤ len) (e : Env) (buf : Mem) :
    Within (bounded b len) (processConfigFile e buf (Buffer.note (some offset))) :=
  .cleanUp (.bind (receiveConfigFile_bounded fits buf) fun
    | none => .pure _
    | some h => acceptConfigFile_bounded e h) (blind_bounded dropConfigBuf_blind)

theorem writeImageData_bounded (e : Env) (p : Packet) :
    Within (bounded p.len p.len) (writeImageData e p) := by
  rw [writeImageData_eq]
  apply bounded_getCxt
  intro c length
  refine .bind (.when (blind_bounded (blind_tune (fun _ => rfl) fun _ => rfl))) fun _ => ?_
  refine .ite (.fail _) (.bind (bounded_emit ?_) fun _ => ?_)
  · intro i lt
    unfold Cxt.writeLen Cxt.source at lt
    unfold Cxt.source
    by_cases format : c.format = formatPartial
    · simp only [format, ↓reduceIte] at lt ⊢
      omega
    · simp only [format, ↓reduceIte] at lt ⊢
      omega
  · refine .bind (blind_bounded (digestUpdate_blind _)) fun _ => ?_
    refine .bind (.orFail (steady_bounded (eraseAhead_steady ..)) _) fun _ => ?_
    refine .bind (.orFail (blind_bounded (writePartition_blind ..)) _) fun _ => ?_
    exact blind_bounded (blind_tune (fun _ => rfl) fun _ => rfl)

theorem processReceiveImage_bounded (e : Env) (p : Packet) (fuel : Nat) :
    Within (bounded p.len p.len) (processReceiveImage e p fuel) := by
  induction fuel with
  | zero => exact .pure _
  | succ fuel ih =>
    refine bounded_getCxt fun c _ => .ite (.pure _) ?_
    refine .bind (looking_bounded (readImageHdr_looking ..)) fun img => ?_
    refine .bind (.when (blind_bounded (startImage_blind ..))) fun _ => .ite ?_ ?_
    · refine .bind (blind_bounded (nextImage_blind _)) fun _ => bounded_getCxt fun c _ => ?_
      exact .ite (blind_bounded (setState_blind rfl)) ih
    · refine .bind (.when (blind_bounded digestStarts_blind)) fun _ => ?_
      refine .bind (writeImageData_bounded e p) fun _ => ?_
      refine .bind (blind_bounded (finishIfComplete_blind ..)) fun _ => .ite (.pure _) ?_
      exact .bind (.orFail (steady_bounded (eraseNext_steady e)) _) fun _ => .ite (.pure _) ih

/-! ## One call -/

/-- In a state that reads the packet, `buf_len` is that of this call, or too short for the
header to be looked at. -/
structure Renewed (p : Packet) (buffer : Buffer) (s : St) : Prop where
  image : ∀ c, s.cxt = some c → c.fwUpgradeState = .processImage → c.bufLen ≤ p.len
  header : ∀ c, s.cxt = some c → c.fwUpgradeState = .processConfigFile →
    (∃ offset, buffer = some offset ∧ offset + c.bufLen ≤ p.len) ∨
      (c.configBuf = none ∧ c.bufLen < hdrPart1Len)

/-- What one pass of the session loop does. -/
structure Passes (p : Packet) (o : Traced.Out St Event Status (Option Buffer)) : Prop where
  reads : ∀ w ∈ o.trace, w.InBounds p.len
  renewed : ∀ buffer, o.res = .ok (some buffer) → Renewed p buffer o.state

/-- A pass that does not look at the packet. -/
theorem Passes.of_looking {p : Packet} {m : M (Option Buffer)} (h : Within looking.frame m)
    {s : St} {c : Cxt}
    (hc : s.cxt = some c) (idle : (!c.fwUpgradeState.consumes) = true) : Passes p (m s) := by
  obtain ⟨silent, cxt⟩ := h.run s
  have left : ∀ d, (m s).state.cxt = some d → (!d.fwUpgradeState.consumes) = true := by
    intro d hd
    obtain ⟨c', hc', _, same | idle'⟩ := cxt d hd
    · obtain rfl := Option.some.inj (hc.symm.trans hc')
      rw [same]
      exact idle
    · exact idle'
  constructor
  · exact fun w mem => Event.inBounds_of_silent (silent w mem)
  · intro buffer _
    constructor
    · intro d hd state
      have := left d hd
      rw [state] at this
      cases this
    · intro d hd state
      have := left d hd
      rw [state] at this
      cases this

theorem Passes.of_blind {p : Packet} {m : M (Option Buffer)} (h : Blind m) {s : St} {c : Cxt}
    (hc : s.cxt = some c) (idle : (!c.fwUpgradeState.consumes) = true) : Passes p (m s) :=
  .of_looking (blind_looking h) hc idle

/-- A header that is looked for with less than 17 bytes is not read. -/
theorem processConfigFile_short (e : Env) (buf : Mem) (note : Nat → Event) {s : St} {c : Cxt}
    (hc : s.cxt = some c) (none : c.configBuf = none) (short : c.bufLen < hdrPart1Len) :
    processConfigFile e buf note s = ⟨.error .incorrectImageHdr, s, []⟩ := by
  have fails : receiveConfigFile buf note s = ⟨.error .incorrectImageHdr, s, []⟩ := by
    unfold receiveConfigFile
    rw [Act.bind_ok (getCxt_run hc), none]
    dsimp only
    rw [if_pos short]
    rfl
  have kept : dropConfigBuf s = ⟨.ok (), s, []⟩ := by
    unfold dropConfigBuf
    rw [Act.bind_ok (Act.read_run s), hc]
    simp [none]
  unfold processConfigFile
  have stops {α : Type} (f : Option (List UInt8) → M α) :
      (receiveConfigFile buf note >>= f) s = ⟨.error .incorrectImageHdr, s, []⟩ := by
    rw [Act.bind_run, fails, Act.andThen_error]
  exact Act.cleanUp_error (stops _) kept

/-- A pass that ends with `buffer` when it succeeds, in a frame. -/
theorem Passes.of_bounded {p : Packet} {b : Nat} {m : M Unit} {s : St} {buffer : Buffer}
    (step : Bounded b p.len s (m s).trace (m s).state) (fits : b ≤ p.len)
    (header : ∀ d, (m s).state.cxt = some d → d.fwUpgradeState = .processConfigFile →
      ∃ offset, buffer = some offset ∧ offset + d.bufLen ≤ p.len) :
    Passes p ((m >>= fun _ => pure (some buffer)) s) := by
  rw [Act.bind_run]
  constructor
  · intro w mem
    apply step.reads
    cases hr : (m s).res with
    | ok a => simpa [Out.andThen, hr] using mem
    | error err => simpa [Out.andThen, hr] using mem
  · intro buffer' ok
    obtain ⟨a, _, done, same⟩ := Act.andThen_res_ok ok
    obtain rfl := Option.some.inj (Except.ok.inj done)
    rw [same]
    constructor
    · exact fun d hd _ => Nat.le_trans (step.length d hd) fits
    · exact fun d hd state => .inl (header d hd state)

theorem sessionStep_passes (p : Packet) (buffer : Buffer) {s : St} (renewed : Renewed p buffer s)
    (guard : ∀ c, s.cxt = some c → c.bufOffset ≤ p.len ∨ c.fwUpgradeState.late) :
    Passes p (sessionStep e p buffer s) := by
  unfold sessionStep
  cases hc : s.cxt with
  | none =>
    rw [Act.bind_run, getCxt_none hc, Act.andThen_error]
    exact ⟨fun _ mem => absurd mem List.not_mem_nil, by rintro _ ⟨⟩⟩
  | some c =>
    rw [Act.bind_ok (getCxt_run hc)]
    cases state : c.fwUpgradeState with
    | notStart =>
      exact .of_blind (.bind (setState_blind rfl) fun _ => .pure _) hc (by rw [state]; rfl)
    | getTrialInfo =>
      exact .of_blind (.bind (Blind.of_closing (getTrialInfo_closing e)) fun _ => .pure _) hc
        (by rw [state]; rfl)
    | eraseFwd =>
      exact .of_blind (.bind (.orFail (Blind.of (eraseFwd_steady ..)) _) fun _ =>
        .bind (setState_blind rfl) fun _ => .pure _) hc (by rw [state]; rfl)
    | eraseSecondFs =>
      exact .of_blind (.bind (Blind.of_closing (eraseSecondFs_closing e)) fun _ => .pure _) hc
        (by rw [state]; rfl)
    | prepareFs =>
      exact .of_blind (.bind (Blind.of_closing (prepareFs_closing e)) fun _ => .pure _) hc
        (by rw [state]; rfl)
    | prepareConnect =>
      exact .of_looking (.bind (prepareConnect_looking e p) fun _ => .pure _) hc (by rw [state]; rfl)
    | connect =>
      exact .of_blind (.bind (setState_blind rfl) fun _ => .pure _) hc (by rw [state]; rfl)
    | disconnectServer =>
      exact .of_blind (.bind (setState_blind rfl) fun _ => .pure _) hc (by rw [state]; rfl)
    | duplicateImages =>
      exact .of_blind (.bind (processDuplicateImages_blind e) fun _ =>
        .bind (setState_blind rfl) fun _ => .pure _) hc (by rw [state]; rfl)
    | duplicateFs =>
      exact .of_blind (.bind (.when (Blind.of (processDuplicateFs_steady e))) fun _ =>
        .bind (setState_blind rfl) fun _ => .pure _) hc (by rw [state]; rfl)
    | finish =>
      exact .of_blind (.bind (Blind.of_closing (sessionFinalize_closing e)) fun _ => .pure _) hc
        (by rw [state]; rfl)
    | receiveData =>
      have inside : c.bufOffset ≤ p.len := by
        obtain le | late := guard c hc
        · exact le
        · rw [state] at late
          cases late
      simp only [Act.ite_run]
      split
      · exact ⟨fun _ mem => absurd mem List.not_mem_nil, by rintro _ ⟨⟩⟩
      · rw [Act.bind_ok (updateCxt_run hc _), Act.pure_run]
        constructor
        · exact fun _ mem => absurd mem List.not_mem_nil
        · rintro _ ⟨⟩
          constructor
          · rintro _ ⟨⟩ _
            exact Nat.sub_le _ _
          · rintro _ ⟨⟩ _
            exact .inl ⟨c.bufOffset, rfl, by dsimp only; omega⟩
    | processConfigFile =>
      obtain ⟨offset, rfl, fits⟩ | ⟨none, short⟩ := renewed.header c hc state
      · have step := (processConfigFile_bounded (b := c.bufLen) fits e
          (p.buffer (some offset))).run s fun d hd =>
            Nat.le_of_eq (congrArg Cxt.bufLen (Option.some.inj (hd.symm.trans hc)))
        apply Passes.of_bounded step (by omega)
        intro d hd _
        have length := step.length d hd
        exact ⟨offset, rfl, by omega⟩
      · change Passes p ((processConfigFile e (p.buffer buffer) (Buffer.note buffer) >>= fun _ =>
          pure (some buffer)) s)
        rw [Act.bind_run, processConfigFile_short e _ _ hc none short, Act.andThen_error]
        exact ⟨fun _ mem => absurd mem List.not_mem_nil, by rintro _ ⟨⟩⟩
    | processImage =>
      have length := renewed.image c hc state
      have frame : Within (bounded p.len p.len) (do
          processReceiveImage e p (c.bufLen + c.totalImages + 2)
          let c ← getCxt
          Act.when (c.fwUpgradeState = .processImage) (setState .receiveData) : M Unit) :=
        .bind (processReceiveImage_bounded e p _) fun _ => bounded_getCxt fun c _ =>
          .when (blind_bounded (setState_blind rfl))
      have step := frame.run s fun d hd => by rwa [← Option.some.inj (hc.symm.trans hd)]
      have passes := @Passes.of_bounded _ _ _ _ buffer step (Nat.le_refl _) fun d hd header => by
        obtain ⟨c', hc', state'⟩ := step.header d hd header
        rw [← Option.some.inj (hc.symm.trans hc'), state] at state'
        cases state'
      rw [Act.bind_assoc] at passes
      simp only [Act.bind_assoc] at passes
      exact passes

/-- While the loop runs, every pass finds `buf_len` renewed. -/
theorem sessionLoop_inBounds (p : Packet) (fuel : Nat) (buffer : Buffer) {s : St}
    (renewed : Renewed p buffer s) :
    ∀ w ∈ (sessionLoop e p fuel buffer s).trace, w.InBounds p.len := by
  induction fuel generalizing buffer s with
  | zero => exact fun _ mem => absurd mem List.not_mem_nil
  | succ fuel ih =>
    unfold sessionLoop
    cases hc : s.cxt with
    | none =>
      rw [Act.bind_run, getCxt_none hc, Act.andThen_error]
      exact fun _ mem => absurd mem List.not_mem_nil
    | some c =>
      rw [Act.bind_ok (getCxt_run hc), Act.ite_run]
      split
      · rename_i guard
        have step := sessionStep_passes (e := e) p buffer renewed fun d hd => by
          obtain rfl := Option.some.inj (hc.symm.trans hd)
          exact guard
        intro w mem
        rw [Act.bind_run] at mem
        rcases hr : (sessionStep e p buffer s).res with err | next
        · simp only [Out.andThen, hr] at mem
          exact step.reads w mem
        · simp only [Out.andThen, hr] at mem
          obtain before | after := List.mem_append.mp mem
          · exact step.reads w before
          · cases next with
            | none => exact absurd after List.not_mem_nil
            | some buffer' => exact ih buffer' (step.renewed buffer' hr) w after
      · exact fun _ mem => absurd mem List.not_mem_nil

/-! ## Calls -/

/-- Nothing is read of the packet. -/
def silent : Frame St Event where
  rel _ l _ := ∀ w ∈ l, (!w.reads) = true
  refl _ := fun _ mem => absurd mem List.not_mem_nil
  trans := fun h h' w mem => (List.mem_append.mp mem).elim (h w) (h' w)

theorem silent_closing {α : Type} {m : M α} (h : Closing m) : Within silent m :=
  ⟨fun s => ((blind_looking (Blind.of_closing h)).run s).events⟩

theorem sessionInit_silent (e : Env) : Within silent (sessionInit e) :=
  sessionInit_within silent_closing (.update fun _ _ mem => absurd mem List.not_mem_nil) e

/-- A call that goes on with a session in a state that reads the packet finds `buf_len`
within the packet, or too short for a header to be looked at. -/
structure Resumable (s : St) (p : Packet) : Prop where
  image : p.offset ≠ 0 → ∀ c, s.cxt = some c → c.fwUpgradeState = .processImage →
    c.bufLen ≤ p.len
  header : p.offset ≠ 0 → ∀ c, s.cxt = some c → c.fwUpgradeState = .processConfigFile →
    c.configBuf = none ∧ c.bufLen < hdrPart1Len

theorem passPacket_inBounds (fuel : Nat) {p : Packet} {s : St} (renewed : Renewed p none s) :
    ∀ w ∈ ((do
      let _ ← getCxt
      updateCxt fun c => { c with bufOffset := 0 }
      sessionLoop e p fuel none : M Bool) s).trace, w.InBounds p.len := by
  cases hc : s.cxt with
  | none =>
    rw [Act.bind_run, getCxt_none hc, Act.andThen_error]
    exact fun _ mem => absurd mem List.not_mem_nil
  | some c =>
    rw [Act.bind_ok (getCxt_run hc), Act.bind_ok (updateCxt_run hc _)]
    apply sessionLoop_inBounds
    constructor
    · rintro _ ⟨⟩ state
      exact renewed.image c hc state
    · rintro _ ⟨⟩ state
      exact renewed.header c hc state

theorem sessionProcess_inBounds (fuel : Nat) {p : Packet} {s : St} (resumable : Resumable s p) :
    ∀ w ∈ (sessionProcess e fuel p s).trace, w.InBounds p.len := by
  unfold sessionProcess
  by_cases offset : p.offset = 0
  · rw [Act.when_pos offset, Act.bind_run]
    have silent := (sessionInit_silent e).run s
    have begins := sessionInit_begins e s
    unfold BeginsFrom at begins
    rcases run : sessionInit e s with ⟨r, t, l⟩
    rw [run] at silent begins
    rw [List.nil_append] at begins
    cases begins with
    | error none still notes =>
      rw [Act.orFail_error run, Act.andThen_error]
      exact fun w mem => Event.inBounds_of_silent (silent w mem)
    | ok fresh init still notes =>
      rw [Act.orFail_ok run, Act.andThen_ok]
      intro w mem
      obtain before | after := List.mem_append.mp mem
      · exact Event.inBounds_of_silent (silent w before)
      · apply passPacket_inBounds fuel _ w after
        constructor
        · intro c hc state
          cases fresh.symm.trans hc
          cases state
        · intro c hc state
          cases fresh.symm.trans hc
          cases state
  · rw [Act.when_neg offset, Act.bind_ok (Act.pure_run () s)]
    apply passPacket_inBounds fuel
    constructor
    · exact resumable.image offset
    · exact fun c hc state => .inr (resumable.header offset c hc state)

/-- Calls from a state without a session, each with the packet and what it did. -/
inductive Served (e : Env) (ok : St → Packet → Prop) : St → List (Packet × List Event) → Prop
  | idle {s : St} (none : s.cxt = none) : Served e ok s []
  | call {s : St} {run : List (Packet × List Event)} (served : Served e ok s run) (fuel : Nat)
      (p : Packet) (met : ok s p) :
      Served e ok (sessionProcess e fuel p s).state
        (run ++ [(p, (sessionProcess e fuel p s).trace)])

/-- In every run of calls that are resumable, each call reads its own packet only. -/
theorem reads_within_packet {s : St} {run : List (Packet × List Event)}
    (served : Served e Resumable s run) : ∀ x ∈ run, ∀ w ∈ x.2, w.InBounds x.1.len := by
  induction served with
  | idle => exact fun _ mem => absurd mem List.not_mem_nil
  | call served fuel p met ih =>
    intro x mem
    obtain before | last := List.mem_append.mp mem
    · exact ih x before
    · obtain rfl := List.mem_singleton.mp last
      exact sessionProcess_inBounds fuel met

/-- The first write of image data fails. -/
def failingDevice : St := { plainDevice with opFaults := List.replicate 8 none ++ [some fun _ => 0] }

def failingFirst : Traced.Out St Event Status Bool :=
  sessionProcess plainEnv 40 fullFirst failingDevice

def failingSecond : Traced.Out St Event Status Bool :=
  sessionProcess plainEnv 40 fullSecond failingFirst.state

def failingThird : Traced.Out St Event Status Bool :=
  sessionProcess plainEnv 40 fullSecond failingSecond.state

def Event.readsPacket : Event → Bool
  | .note (.packet _ (_ + 1)) => true
  | _ => false

theorem failing_checks : failingFirst.state.cxt.map Cxt.fwUpgradeState = some .receiveData ∧
    (failingSecond.state.cxt.map fun c => (c.fwUpgradeState, c.bufLen)) =
      some (.processImage, 221) ∧
    failingFirst.trace.any Event.readsPacket = true ∧
    failingSecond.trace.any Event.readsPacket = true ∧
    failingThird.trace.any Event.readsPacket = true := by
  decide +kernel

/-- The first two packets have the header and the images; the second call fails while it writes
one, and the third goes on in `PROCESS_IMAGE` with the same packet. -/
theorem reads_within_retry : (∀ w ∈ failingFirst.trace, w.InBounds 200) ∧
    (∀ w ∈ failingSecond.trace, w.InBounds 221) ∧ (∀ w ∈ failingThird.trace, w.InBounds 221) ∧
    failingFirst.trace.any Event.readsPacket = true ∧
    failingSecond.trace.any Event.readsPacket = true ∧
    failingThird.trace.any Event.readsPacket = true := by
  obtain ⟨receiving, stopped, reads⟩ := failing_checks
  have idle : Served plainEnv Resumable failingDevice [] := .idle rfl
  have first := idle.call 40 fullFirst ⟨fun ne => absurd rfl ne, fun ne => absurd rfl ne⟩
  have second := first.call 40 fullSecond (by
    change Resumable failingFirst.state fullSecond
    constructor
    · intro _ c hc state
      rw [hc, Option.map_some, state] at receiving
      cases receiving
    · intro _ c hc state
      rw [hc, Option.map_some, state] at receiving
      cases receiving)
  have third := second.call 40 fullSecond (by
    change Resumable failingSecond.state fullSecond
    constructor
    · intro _ c hc _
      rw [hc] at stopped
      rw [show c.bufLen = 221 from congrArg Prod.snd (Option.some.inj stopped)]
      decide +kernel
    · intro _ c hc state
      rw [hc, Option.map_some, state] at stopped
      cases stopped)
  have all := reads_within_packet third
  have inside₁ := all _ (.head _)
  have inside₂ := all _ (.tail _ (.head _))
  have inside₃ := all _ (.tail _ (.tail _ (.head _)))
  dsimp only at inside₁ inside₂ inside₃
  rw [show fullFirst.len = 200 by decide +kernel] at inside₁
  rw [show fullSecond.len = 221 by decide +kernel] at inside₂ inside₃
  exact ⟨inside₁, inside₂, inside₃, reads⟩

def Event.readsNull : Event → Bool
  | .note (.nullBuffer (_ + 1)) => true
  | _ => false

/-- 17 bytes that are no header end the first call; the second reads 17 through NULL. -/
theorem header_retry_reads_null : ¬∀ (e : Env) (s : St) (run : List (Packet × List Event)),
    Served e (fun _ _ => True) s run → ∀ x ∈ run, ∀ w ∈ x.2, w.InBounds x.1.len := by
  intro inBounds
  have idle : Served plainEnv (fun _ _ => True) plainDevice [] := .idle rfl
  have run := (idle.call 40 (.of 0 (List.replicate 17 0)) trivial).call 40 (.of 17 [0]) trivial
  have read : (sessionProcess plainEnv 40 (.of 17 [0]) (sessionProcess plainEnv 40
      (.of 0 (List.replicate 17 0)) plainDevice).state).trace.any Event.readsNull = true := by
    decide
  obtain ⟨w, mem, null⟩ := List.any_eq_true.mp read
  have bound := inBounds _ _ _ run _ (.tail _ (.head _)) w mem
  cases w with
  | note n =>
    cases n with
    | nullBuffer size =>
      cases size with
      | zero => cases null
      | succ n => cases bound
    | _ => cases null
  | _ => cases null

end Qapp.Fw
