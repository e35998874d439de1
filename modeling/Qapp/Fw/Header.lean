import Qapp.Fw.Prepare

/-!
# Receiving and checking the header
-/

namespace Qapp.Fw
open ByteMem Traced
open Relation (ReflTransGen)

variable {e : Env} {retry : Bool}

theorem session_start (h : List Event) : session (h ++ [.start]) = [] := by
  unfold session
  rw [List.foldl_append]
  rfl

theorem session_append (h : List Event) {k : List Event} (none : ∀ w ∈ k, w ≠ .start) :
    session (h ++ k) = session h ++ k := by
  induction k generalizing h with
  | nil => rw [List.append_nil, List.append_nil]
  | cons w k ih =>
    have one : session (h ++ [w]) = session h ++ [w] := by
      have ne := none w (List.mem_cons_self ..)
      unfold session
      rw [List.foldl_append]
      cases w <;> first | rfl | exact absurd rfl ne
    have rest := ih (h ++ [w]) fun w hw => none w (List.mem_cons_of_mem _ hw)
    rw [one, List.append_assoc, List.append_assoc] at rest
    exact rest

theorem mem_session_append {w : Event} {h l : List Event} (mem : w ∈ session h)
    (no : ∀ v ∈ l, v ≠ .start) : w ∈ session (h ++ l) := by
  rw [session_append h no]
  exact List.mem_append_left l mem

theorem mem_session_last {w : Event} {h : List Event} (ne : w ≠ .start) :
    w ∈ session (h ++ [w]) := by
  rw [session_append h fun v hv => List.mem_singleton.mp hv ▸ ne]
  exact List.mem_append_right _ (List.mem_singleton_self w)

/-- The changes the header makes to the context. -/
structure HeaderUpdate (f : Cxt → Cxt) : Prop where
  eq : ∀ c, f c = { c with
    bufOffset := (f c).bufOffset, configBuf := (f c).configBuf, format := (f c).format,
    imageWrtCount := (f c).imageWrtCount, totalImages := (f c).totalImages,
    trialSblStart := (f c).trialSblStart, trialSblSize := (f c).trialSblSize,
    trialSblIdx := (f c).trialSblIdx, downloadFlag := (f c).downloadFlag,
    digest := (f c).digest }

theorem moves_early {f : Cxt → Cxt} (hf : HeaderUpdate f) {s : St} {h : List Event} {c : Cxt}
    (hc : s.cxt = some c) (first : c.isFirst = true) (hdrs : Option (List ImageHdr)) :
    Moves e retry (s, h) ({ s with cxt := some (f c), imageHdr := hdrs }, h) := by
  rw [hf.eq c]
  refine .head (.early hdrs (f c).format (f c).imageWrtCount (f c).totalImages
    (f c).trialSblStart (f c).trialSblSize (f c).trialSblIdx (f c).downloadFlag (f c).digest hc
    first) ?_
  exact moves_tune rfl rfl (.refl _)

theorem Ctl.header {s t : St} {c c' : Cxt} (ctl : Ctl s c) (first : c.isFirst = true)
    (early : c.fwUpgradeState.early = true) (init : t.fuInitialized = s.fuInitialized)
    (handles : t.handles = s.handles) (flags : ∀ i, c'.downloadFlag i = true)
    (config : ∀ b, c'.configBuf = some b → ConfigOk b)
    (same : c' = { c with
      bufOffset := c'.bufOffset, configBuf := c'.configBuf, format := c'.format,
      imageWrtCount := c'.imageWrtCount, totalImages := c'.totalImages,
      trialSblStart := c'.trialSblStart, trialSblSize := c'.trialSblSize,
      trialSblIdx := c'.trialSblIdx, downloadFlag := c'.downloadFlag, digest := c'.digest }) :
    Ctl t c' := by
  rw [same]
  exact {
    init := init.trans ctl.init
    held := by rw [handles]; exact ctl.held
    first := ctl.first
    fresh := fun h => ⟨(ctl.fresh h).1, (ctl.fresh h).2.1, (ctl.fresh h).2.2.1, flags⟩
    loose := ctl.loose
    accepted := fun h => by rw [first] at h; cases h
    image := ctl.image
    disconnect := ctl.disconnect
    current := fun h => by rw [first] at h; cases h
    full := fun _ h => by rw [first] at h; cases h
    count := fun h => by rw [first] at h; cases h
    late := fun h => by
      have : c.fwUpgradeState.late = false := by
        revert early
        cases c.fwUpgradeState <;> simp [FwState.early, FwState.late]
      rw [this] at h
      cases h
    dup := ctl.dup
    trial := ctl.trial
    config := config }

abbrev InHeader : St → List Event → Prop := In .processConfigFile

/-- The flags stay, and the buffer is checked or not there. -/
structure Receives (f : Cxt → Cxt) : Prop where
  flags : ∀ c, (f c).downloadFlag = c.downloadFlag
  config : ∀ c, (f c).configBuf = c.configBuf ∨ ∀ b, (f c).configBuf = some b → ConfigOk b

theorem header_update {f : Cxt → Cxt} (hf : HeaderUpdate f) (hr : Receives f) :
    Sound (Move e retry) InHeader (updateCxt f) fun _ s l => InHeader s l := by
  rintro s l ⟨c, hc, ctl, state⟩
  have early : c.fwUpgradeState.early = true := by rw [state]; rfl
  have first := ctl.first early
  simp only [updateCxt_run hc, List.append_nil]
  refine ⟨moves_early hf hc first s.imageHdr, f c, rfl, ?_, ?_⟩
  · refine ctl.header first early rfl rfl (fun i => ?_) ?_ (hf.eq c)
    · rw [hr.flags c]
      exact (ctl.fresh first).2.2.2 i
    · rcases hr.config c with same | ok
      · rw [same]; exact ctl.config
      · exact ok
  · rw [hf.eq c]
    exact state

/-! ## Collecting the header -/

/-- What receiving a part of the header leaves. -/
def Received (r : Except Status (Option (List UInt8))) (s : St) (l : List Event) : Prop :=
  match r with
  | .ok none => In .receiveData s l
  | .ok (some b) => InHeader s l ∧ ConfigOk b
  | .error _ => InHeader s l

theorem goes_receive {s : St} {c : Cxt} (ctl : Ctl s c)
    (state : c.fwUpgradeState = .processConfigFile) : Goes c .receiveData :=
  goes_early ctl state rfl
    (.inr (ctl.loose (by rw [state]; rfl) (.inl (by rw [state]; simp)))) (by simp [FwState.late])
    rfl (by simp)

theorem receive_more : Sound (Move e retry) InHeader (do
    setState .receiveData
    pure none : M (Option (List UInt8))) Received := by
  refine .andThen (setState_moves.pre ?_) (fun err s l h => by cases h.1) fun _ =>
    .pure _ fun s l h => h.2
  rintro s l ⟨c, hc, ctl, state⟩
  exact ⟨c, hc, ctl, goes_receive ctl state, by simp⟩

theorem configOk_load {buf : Mem} {n : Nat} (len : hdrPart1Len ≤ n)
    (num : 0 < hdrNumImages (load buf 0 hdrPart1Len) ∧
      hdrNumImages (load buf 0 hdrPart1Len) ≤ maxImages) : ConfigOk (load buf 0 n) := by
  have lt : 16 < n := len
  have same : hdrNumImages (load buf 0 n) = hdrNumImages (load buf 0 hdrPart1Len) := by
    unfold hdrNumImages
    rw [getD_load buf 0 lt, getD_load buf 0 (show 16 < hdrPart1Len by decide)]
  exact ⟨by rw [length_load]; exact len, by rw [same]; exact num.1, by rw [same]; exact num.2⟩

theorem ConfigOk.append {b : List UInt8} (ok : ConfigOk b) (more : List UInt8) :
    ConfigOk (b ++ more) := by
  have lt : 16 < b.length := ok.len
  have same : hdrNumImages (b ++ more) = hdrNumImages b := by
    unfold hdrNumImages
    simp only [List.getD_eq_getElem?_getD, List.getElem?_append_left lt]
  refine ⟨?_, by rw [same]; exact ok.pos, by rw [same]; exact ok.le⟩
  rw [List.length_append]
  exact Nat.le_trans ok.len (Nat.le_add_right _ _)

theorem receiveConfigFile_moves (buf : Mem) {note : Nat → Event}
    (notes : ∀ n, ∃ m, note n = .note m) :
    Sound (Move e retry) InHeader (receiveConfigFile buf note) Received := by
  have stop : ∀ err : Status, Sound (Move e retry) InHeader
      (Act.fail err : M (Option (List UInt8))) Received := fun err => .fail _ fun s l h => h
  have emit : ∀ n, Sound (Move e retry) InHeader (Act.emit (note n) : M Unit)
      fun _ s l => InHeader s l := by
    intro n
    obtain ⟨m, hm⟩ := notes n
    rw [hm]
    exact note_moves m fun s l h => h
  unfold receiveConfigFile
  refine getCxt_bind (fun s l h => h.imp fun c hc => hc.1) fun c => ?_
  cases hb : c.configBuf with
  | none =>
    refine .pre (P := InHeader) ?_ fun s l h => h.2
    refine .ite (fun _ => stop _) fun len => ?_
    refine .andThen (emit _) (fun _ _ _ h => h) fun _ => .ite (fun _ => stop _) fun num =>
      .ite (fun _ => stop _) fun _ => ?_
    refine .andThen (header_update ⟨fun c => rfl⟩ ⟨fun c => rfl, fun c => .inl rfl⟩)
      (fun _ _ _ h => h) fun _ => .ite (fun _ => stop _) fun total => ?_
    refine .andThen (malloc_moves .config (Q := fun _ s l => InHeader s l) fun s l oom n ok h =>
      h.quiet (quiet_oom s oom)) (fun _ _ _ h => h) fun ok => .ite (fun _ => stop _) fun _ => ?_
    have config : ConfigOk (load buf 0
        (min c.bufLen (hdrLength (load buf 0 hdrPart1Len)))) := by
      refine configOk_load ?_ (not_not.mp num)
      have := not_not.mp total
      omega
    refine .andThen (emit _) (fun _ _ _ h => h) fun _ => ?_
    refine .andThen (header_update ⟨fun c => rfl⟩ ⟨fun c => rfl, fun c => .inr ?_⟩)
      (fun _ _ _ h => h) fun _ => .ite (fun _ => ?_) fun _ => .pure _ fun s l h => ⟨h, config⟩
    · intro b hb
      cases hb
      exact config
    · exact .andThen (header_update ⟨fun c => rfl⟩ ⟨fun c => rfl, fun c => .inl rfl⟩)
        (fun _ _ _ h => h) fun _ => receive_more
  | some b =>
    refine .assume (φ := ConfigOk b) ?_ fun ok => ?_
    · rintro s l ⟨hc, c', hc', ctl, -⟩
      rw [hc] at hc'
      cases hc'
      exact ctl.config b hb
    refine .pre (P := InHeader) ?_ fun s l h => h.2
    refine .andThen (emit _) (fun _ _ _ h => h) fun _ => ?_
    refine .andThen (header_update ⟨fun c => rfl⟩ ⟨fun c => rfl, fun c => .inr ?_⟩)
      (fun _ _ _ h => h) fun _ => .ite (fun _ => receive_more) fun _ =>
        .pure _ fun s l h => ⟨h, ok.append _⟩
    intro b hb
    cases hb
    exact ok.append _

/-! ## Checking the header -/

/-- The header's hash has been found right in this session. -/
def HashOk (l : List Event) : Prop := ∃ b, .hashed none b true ∈ session l

theorem HashOk.append {h l : List Event} (ok : HashOk h) (no : ∀ v ∈ l, v ≠ .start) :
    HashOk (h ++ l) := by
  obtain ⟨b, mem⟩ := ok
  exact ⟨b, mem_session_append mem no⟩

theorem HashOk.note {h : List Event} (ok : HashOk h) (n : Note) : HashOk (h ++ [.note n]) :=
  ok.append (by simp)

/-- What the entry checks and sums have shown. -/
structure SumsOk (raw hdrs : List ImageHdr) (a : EntrySums) (c : Cxt) (s : St) : Prop where
  total : c.totalImages = raw.length
  imageHdr : s.imageHdr = some hdrs
  app : a.sblImageExist = true → a.appImageExist = true
  fits : a.diskSize ≤ c.trialMemSize
  len : a.len ≤ a.diskSize
  sbl : selectSblTrialFde s.rram = some (c.trialSblIdx, c.trialSblStart, c.trialSblSize)
  sblFits : a.sblDiskSize ≤ c.trialSblSize

/-- The context while the images to download are found out. -/
structure Checked (raw hdrs : List ImageHdr) (a : EntrySums) (c : Cxt) (s : St)
    (l : List Event) : Prop where
  cxt : s.cxt = some c
  ctl : Ctl s { c with downloadFlag := fun _ => true }
  state : c.fwUpgradeState = .processConfigFile
  hash : HashOk l
  sums : SumsOk raw hdrs a c s

section Checked
variable {raw hdrs : List ImageHdr} {a : EntrySums} {c : Cxt} {s : St} {l : List Event}

theorem Checked.first (h : Checked raw hdrs a c s l) : c.isFirst = true :=
  h.ctl.first (by rw [h.state]; rfl)

theorem Checked.inHeader (h : Checked raw hdrs a c s l)
    (flags : ∀ i, c.downloadFlag i = true) : InHeader s l := by
  have : { c with downloadFlag := fun _ => true } = c := by
    have : c.downloadFlag = fun _ => true := funext flags
    rw [← this]
  refine ⟨c, h.cxt, ?_, h.state⟩
  rw [← this]
  exact h.ctl

theorem Checked.quiet {t : St} (h : Checked raw hdrs a c s l) (q : Quiet s t) :
    Checked raw hdrs a c t l where
  cxt := q.cxt.trans h.cxt
  ctl := by
    have held : Held s := by
      intro c' hc'
      rw [h.cxt] at hc'
      cases hc'
      exact h.ctl.held
    have held' := q.held held c (q.cxt.trans h.cxt)
    have imageHdr := q.imageHdr
    exact { h.ctl with
      init := (q.init h.ctl.init).1
      held := held'
      accepted := fun no => by
        have first := h.first
        rw [show c.isFirst = false from no] at first
        cases first }
  state := h.state
  hash := h.hash
  sums := { h.sums with
    imageHdr := q.imageHdr.trans h.sums.imageHdr
    sbl := by rw [q.rram]; exact h.sums.sbl }

theorem Checked.note (h : Checked raw hdrs a c s l) (n : Note) :
    Checked raw hdrs a c s (l ++ [.note n]) := { h with hash := h.hash.note n }

end Checked

/-- A partial upgrade finds out what to download. -/
def Loading (raw hdrs : List ImageHdr) (a : EntrySums) (s : St) (l : List Event) : Prop :=
  ∃ c, Checked raw hdrs a c s l ∧ c.format = formatPartial

/-- A change of the flags or the digest only. -/
structure LoadUpdate (f : Cxt → Cxt) : Prop where
  eq : ∀ c, f c = { c with downloadFlag := (f c).downloadFlag, digest := (f c).digest }

theorem LoadUpdate.header {f : Cxt → Cxt} (hf : LoadUpdate f) : HeaderUpdate f :=
  ⟨fun c => by rw [hf.eq c]⟩

section Loading
variable {raw hdrs : List ImageHdr} {a : EntrySums}

theorem load_update {f : Cxt → Cxt} (hf : LoadUpdate f) :
    Sound (Move e retry) (Loading raw hdrs a) (updateCxt f) fun r s l =>
      r = .ok () ∧ Loading raw hdrs a s l := by
  rintro s l ⟨c, checked, format⟩
  simp only [updateCxt_run checked.cxt, List.append_nil]
  refine ⟨moves_early hf.header checked.cxt checked.first s.imageHdr, trivial, f c, ?_, ?_⟩
  · rw [hf.eq c]
    exact {
      cxt := rfl
      ctl := { checked.ctl with }
      state := checked.state
      hash := checked.hash
      sums := { checked.sums with } }
  · rw [hf.eq c]
    exact format

theorem Loading.up {s : St} {l : List Event} (h : Loading raw hdrs a s l) : Up s l := by
  obtain ⟨c, checked, -⟩ := h
  refine ⟨?_, checked.ctl.init⟩
  intro c' hc'
  rw [checked.cxt] at hc'
  cases hc'
  exact checked.ctl.held

theorem Loading.quiet {s t : St} {l : List Event} (h : Loading raw hdrs a s l) (q : Quiet s t) :
    Loading raw hdrs a t l := h.imp fun _ h => ⟨h.1.quiet q, h.2⟩

theorem Loading.loose {s : St} {l : List Event} (h : Loading raw hdrs a s l) (k : Nat) :
    Loose k s := by
  obtain ⟨c, checked, -⟩ := h
  intro c' hc'
  rw [checked.cxt] at hc'
  cases hc'
  have none : c.partitionHdl = none := checked.ctl.loose (by rw [show _ = _ from checked.state]; rfl)
    (.inl (by rw [show _ = _ from checked.state]; simp))
  rw [none]
  simp

/-- Loading never fails. -/
def Loads (raw hdrs : List ImageHdr) (a : EntrySums) (r : Except Status Unit) (s : St)
    (l : List Event) : Prop := r = .ok () ∧ Loading raw hdrs a s l

theorem Loads.bind {α : Type} {m : M Unit} {f : Unit → M α} {P : St → List Event → Prop}
    {Q : Except Status α → St → List Event → Prop}
    (first : Sound (Move e retry) P m (Loads raw hdrs a))
    (rest : Sound (Move e retry) (Loading raw hdrs a) (f ()) Q) :
    Sound (Move e retry) P (m >>= f) Q :=
  .andThen first (fun err s l h => by cases h.1) fun _ => rest.pre fun s l h => h.2

theorem hashBlocks_moves (hdl n offset : Nat) : Sound (Move e retry) (Loading raw hdrs a)
    (hashBlocks e hdl n offset) (Loads raw hdrs a) := by
  induction n generalizing offset with
  | zero => exact .pure _ fun s l h => ⟨rfl, h⟩
  | succ n ih =>
    unfold hashBlocks
    have read := readPartition_reads e (some hdl) offset blockSize (P := Loading raw hdrs a)
      fun s t l h reads => h.quiet reads.quiet
    refine .andThen read.moves (fun err s l ⟨_, _, _, h, _⟩ => by cases h) fun r => ?_
    refine Sound.pre (P := Loading raw hdrs a) ?_ fun s l h => h.1
    exact Loads.bind (.when (fun _ => load_update ⟨fun c => rfl⟩) fun _ s l h => ⟨rfl, h⟩) (ih _)

theorem checkActive_moves (active i : Nat) (img : ImageHdr) :
    Sound (Move e retry) (Loading raw hdrs a) (checkActive e active i img)
      (Loads raw hdrs a) := by
  unfold checkActive
  have find := (findPartition_reads e active img.imageId).keeping (I := Loading raw hdrs a)
    fun s t l h q => h.quiet q
  refine .attempt_bind (find.moves.pre fun s l h => ⟨h.up, h⟩) fun r => ?_
  refine .pre (P := Loading raw hdrs a) ?_ fun s l h => h.2
  cases r with
  | error err => exact .pure _ fun s l h => ⟨rfl, h⟩
  | ok k =>
    have release : Sound (Move e retry) (Loading raw hdrs a) (Act.update (releaseHandle k))
        (Loads raw hdrs a) :=
      .update (fun s l h => .single (.quiet (quiet_release (h.loose k)))) fun s l h =>
        ⟨rfl, h.quiet (quiet_release (h.loose k))⟩
    refine Loads.bind (load_update ⟨fun c => rfl⟩) (.read_bind fun b => ?_)
    refine .pre (P := Loading raw hdrs a) (Loads.bind (hashBlocks_moves _ _ _) (Loads.bind release ?_))
      fun s l h => h.2
    have finish : Sound (Move e retry) (Loading raw hdrs a) (digestFinish e) fun r s l =>
        (∃ hash, r = .ok hash) ∧ Loading raw hdrs a s l := by
      unfold digestFinish
      refine getCxt_bind (fun s l h => h.imp fun c h => h.1.cxt) fun c => ?_
      refine .pre (P := Loading raw hdrs a) (Loads.bind (load_update ⟨fun c => rfl⟩) ?_) fun s l h => h.2
      exact .pure _ fun s l h => ⟨⟨_, rfl⟩, h⟩
    refine .andThen finish (fun err s l ⟨⟨_, h⟩, _⟩ => by cases h) fun hash => ?_
    refine .pre (P := Loading raw hdrs a) ?_ fun s l h => h.2
    exact .when (fun _ => load_update ⟨fun c => rfl⟩) fun _ s l h => ⟨rfl, h⟩

theorem checkDownload_moves (active i : Nat) (imgs : List ImageHdr) :
    Sound (Move e retry) (Loading raw hdrs a) (checkDownload e active i imgs)
      (Loads raw hdrs a) := by
  induction imgs generalizing i with
  | nil => exact .pure _ fun s l h => ⟨rfl, h⟩
  | cons img imgs ih =>
    unfold checkDownload
    refine Loads.bind (load_update ⟨fun c => rfl⟩) ?_
    refine Loads.bind (.when (fun _ => checkActive_moves active i img) fun _ s l h => ⟨rfl, h⟩) ?_
    exact ih (i + 1)

end Loading

/-! ## Accepting the header -/

/-- In the header state, with the hash found right. -/
def Hashed (s : St) (l : List Event) : Prop := InHeader s l ∧ HashOk l

theorem Hashed.note {s : St} {l : List Event} (h : Hashed s l) (n : Note) :
    Hashed s (l ++ [.note n]) := ⟨h.1, h.2.note n⟩

theorem Hashed.quiet {s t : St} {l : List Event} (h : Hashed s l) (q : Quiet s t) : Hashed t l :=
  ⟨h.1.quiet q, h.2⟩

/-- On an initialized module a field of an FWD is written with one operation. -/
theorem setFwdInfo_run (e : Env) {i : Nat} (lt : i < maxFwd) (info : FwdInfo) (value : Nat) {s : St}
    (init : s.fuInitialized = true) : ∃ out t, setFwdInfo e i info value s = ⟨out.res, t,
        [.op (.info i info) (.write (fwdAddr i + info.offset) (leBytes info.size value)) out]⟩ ∧
      Possible e s (.write (fwdAddr i + info.offset) (leBytes info.size value)) out ∧
      Ran s (.write (fwdAddr i + info.offset) (leBytes info.size value)) out t := by
  obtain ⟨out, t, run, possible, ran⟩ := flashWrite_cases e (.info i info)
    (fwdAddr i + info.offset) (leBytes info.size value) s
  refine ⟨out, t, ?_, possible, ran⟩
  unfold setFwdInfo
  simp only [Act.bind_run, validation_run, init, if_true, Act.andThen_ok,
    Nat.not_le.mpr lt, if_false, run, List.nil_append]

theorem setHeaderField_moves {info : FwdInfo} (header : headerField info) (value : Nat) (c : Cxt) :
    Sound (Move e retry) (fun s l => s.cxt = some c ∧ Hashed s l)
      (setFwdInfo e c.trialFwdIdx info value) fun _ s l => s.cxt = some c ∧ Hashed s l := by
  rintro s l ⟨hc, ⟨c', hc', ctl, state⟩, hash⟩
  rw [hc] at hc'
  cases hc'
  have lt := ctl.trial (.inr (by rw [state]; rfl))
  obtain ⟨out, t, run, possible, ran⟩ := setFwdInfo_run e lt info value ctl.init
  rw [run]
  have first := ctl.first (by rw [state]; rfl)
  have hct := ran.cxt.trans hc
  refine ⟨.single (.field hc (by rw [state]; rfl) first lt header possible ran), hct,
    ⟨c, hct, ?_, state⟩, hash.append (by simp)⟩
  exact ctl.congr hc (ran.init.trans ctl.init) ran.cxt ran.imageHdr ran.partition

theorem writeFwdHeader_moves (b : List UInt8) :
    Sound (Move e retry) Hashed (writeFwdHeader e b) fun _ s l => Hashed s l := by
  unfold writeFwdHeader
  refine getCxt_bind (fun s l h => h.1.imp fun c h => h.1) fun c => ?_
  refine .andThen (setHeaderField_moves (.inl rfl) _ c) (fun _ _ _ h => h.2) fun _ => ?_
  refine .andThen (setHeaderField_moves (.inr (.inl rfl)) _ c) (fun _ _ _ h => h.2) fun _ => ?_
  exact (setHeaderField_moves (.inr (.inr rfl)) _ c).post fun _ _ _ h => h.2

theorem leNat_field_lt (b : List UInt8) (offset : Nat) : field b offset < 2 ^ 32 := by
  have lt := leNat_lt ((b.drop offset).take 4)
  have le : ((b.drop offset).take 4).length ≤ 4 := List.length_take_le _ _
  have : 256 ^ ((b.drop offset).take 4).length ≤ 256 ^ 4 := Nat.pow_le_pow_right (by decide) le
  unfold field
  omega

theorem parseImageHdrs_small (n : Nat) (b : List UInt8) :
    ∀ r ∈ parseImageHdrs n b, r.diskSize < 2 ^ 32 ∧ r.imageLength < 2 ^ 32 := by
  intro r hr
  obtain ⟨i, -, rfl⟩ := List.mem_map.mp hr
  exact ⟨leNat_field_lt _ _, leNat_field_lt _ _⟩

theorem parseImageHdrs_length (n : Nat) (b : List UInt8) : (parseImageHdrs n b).length = n := by
  simp [parseImageHdrs]

/-- The header's entries are known, their sums not yet checked. -/
structure Parsed (raw hdrs : List ImageHdr) (c : Cxt) (s : St) (l : List Event) : Prop where
  cxt : s.cxt = some c
  ctl : Ctl s c
  state : c.fwUpgradeState = .processConfigFile
  hash : HashOk l
  total : c.totalImages = raw.length
  imageHdr : s.imageHdr = some hdrs

theorem Parsed.inHeader {raw hdrs : List ImageHdr} {c : Cxt} {s : St} {l : List Event}
    (h : Parsed raw hdrs c s l) : InHeader s l := ⟨c, h.cxt, h.ctl, h.state⟩

/-- What the checks of the sums leave. -/
def SumsChecked (raw hdrs : List ImageHdr) (a : EntrySums) (r : Except Status Unit) (s : St)
    (l : List Event) : Prop :=
  InHeader s l ∧ (r = .ok () → ∃ c, Checked raw hdrs a c s l ∧ ∀ i, c.downloadFlag i = true)

theorem checkSums_moves {raw hdrs : List ImageHdr} (a : EntrySums) :
    Sound (Move e retry) (fun s l => ∃ c, Parsed raw hdrs c s l) (checkSums a)
      (SumsChecked raw hdrs a) := by
  have stop : ∀ {P : St → List Event → Prop} (err : Status), (∀ s l, P s l → InHeader s l) →
      Sound (Move e retry) P (Act.fail err : M Unit) (SumsChecked raw hdrs a) :=
    fun err h => .fail _ fun s l hp => ⟨h s l hp, by simp⟩
  unfold checkSums
  refine getCxt_bind (fun s l h => h.imp fun c h => h.cxt) fun c => ?_
  refine .pre (P := Parsed raw hdrs c) ?_ ?_
  · refine .ite (fun _ => stop _ fun s l h => h.inHeader) fun app => ?_
    refine .ite (fun _ => stop _ fun s l h => h.inHeader) fun fits => ?_
    refine .ite (fun _ => stop _ fun s l h => h.inHeader) fun len => ?_
    refine .read_bind fun b => ?_
    cases select : selectSblTrialFde b.rram with
    | none => exact stop _ fun s l h => h.2.inHeader
    | some sbl =>
      obtain ⟨idx, start, size⟩ := sbl
      refine .andThen (K := fun r s l => r = .ok () ∧ ∃ c, Parsed raw hdrs c s l ∧
        a.diskSize ≤ c.trialMemSize ∧ c.trialSblSize = size ∧
        selectSblTrialFde s.rram = some (c.trialSblIdx, c.trialSblStart, c.trialSblSize)) ?_
        (fun err s l h => by cases h.1) fun _ => ?_
      · rintro s l ⟨rfl, h⟩
        have early : c.fwUpgradeState.early = true := by rw [h.state]; rfl
        have first := h.ctl.first early
        simp only [updateCxt_run h.cxt, List.append_nil]
        refine ⟨moves_early (f := fun c => { c with
          trialSblIdx := idx, trialSblStart := start, trialSblSize := size }) ⟨fun c => rfl⟩
          h.cxt first s.imageHdr, trivial, _, ⟨rfl, ?_, h.state, h.hash, h.total, h.imageHdr⟩,
          Nat.not_lt.mp fits, rfl, select⟩
        exact h.ctl.header first early rfl rfl (h.ctl.fresh first).2.2.2 h.ctl.config rfl
      · refine .ite (fun _ => stop _ fun s l ⟨_, c, h, _⟩ => h.inHeader) fun sblFits => ?_
        refine .pure _ fun s l ⟨_, c, h, fits, hsize, hsbl⟩ => ⟨h.inHeader, fun _ => ?_⟩
        have first := h.ctl.first (by rw [h.state]; rfl)
        have flags := (h.ctl.fresh first).2.2.2
        refine ⟨c, ⟨h.cxt, ?_, h.state, h.hash, h.total, h.imageHdr, fun exist => ?_, fits,
          Nat.not_lt.mp len, hsbl, by rw [hsize]; exact Nat.not_lt.mp sblFits⟩, flags⟩
        · rw [← show c.downloadFlag = fun _ => true from funext flags]
          exact h.ctl
        · simpa [exist] using app
  · rintro s l ⟨hc, c', h⟩
    have := h.cxt
    rw [hc] at this
    cases this
    exact h

theorem checkEntries_length {raw hdrs : List ImageHdr} {a b : EntrySums}
    (h : checkEntries raw a = (hdrs, some b)) : hdrs.length = raw.length := by
  induction raw generalizing hdrs a with
  | nil =>
    cases h
    rfl
  | cons r raw ih =>
    unfold checkEntries at h
    cases hr : checkEntry r a with
    | none =>
      rw [hr] at h
      cases h
    | some p =>
      obtain ⟨r', a'⟩ := p
      rw [hr] at h
      simp only [Prod.mk.injEq] at h
      obtain ⟨rfl, hb⟩ := h
      rw [List.length_cons, List.length_cons, ih (Prod.ext rfl hb)]

/-- The session once the header is accepted. -/
def Accepted' (r : Except Status Unit) (s : St) (l : List Event) : Prop :=
  match r with
  | .ok _ => Left r s l
  | .error _ => InHeader s l

theorem accept_moves {raw hdrs : List ImageHdr} {a : EntrySums} {state : FwState} {c : Cxt}
    {s : St} {l : List Event} (h : Checked raw hdrs a c s l) (pos : 0 < raw.length)
    (small : ∀ r ∈ raw, r.diskSize < 2 ^ 32 ∧ r.imageLength < 2 ^ 32)
    (checked : checkEntries raw ⟨0, 0, false, false, 0⟩ = (hdrs, some a))
    (flags : c.format ≠ formatPartial → ∀ i, c.downloadFlag i = true)
    (next : if c.format = formatPartial then state = .disconnectServer
      else state = .receiveData ∨ state = .processImage ∧ 0 < c.bufLen) :
    Moves e retry (s, l) (s.withCxt { c with isFirst := false, fwUpgradeState := state },
      l ++ [.images raw hdrs c.downloadFlag]) ∧
    Left (.ok ()) (s.withCxt { c with isFirst := false, fwUpgradeState := state })
      (l ++ [.images raw hdrs c.downloadFlag]) := by
  have first := h.first
  have fresh := h.ctl.fresh first
  have loose : c.partitionHdl = none := h.ctl.loose (by rw [show _ = _ from h.state]; rfl)
    (.inl (by rw [show _ = _ from h.state]; simp))
  have hdr : hdrs.length = c.totalImages := by rw [checkEntries_length checked, h.sums.total]
  have notLate : state.late = false ∧ state.early = false ∧ state ≠ .duplicateImages ∧
      state ≠ .eraseFwd ∧ state.erased = true := by
    by_cases format : c.format = formatPartial
    · rw [if_pos format] at next
      rw [next]
      simp [FwState.late, FwState.early, FwState.erased]
    · rw [if_neg format] at next
      rcases next with rfl | ⟨rfl, -⟩ <;> simp [FwState.late, FwState.early, FwState.erased]
  refine ⟨.single (.accept h.cxt (by rw [h.state]; rfl) {
    first := first
    verified := h.hash
    imageHdr := h.sums.imageHdr
    checked := checked
    small := small
    total := h.sums.total
    pos := pos
    app := h.sums.app
    fits := h.sums.fits
    len := h.sums.len
    sbl := h.sums.sbl
    sblFits := h.sums.sblFits
    loose := loose
    fresh := ⟨fresh.1, fresh.2.1, fresh.2.2.1⟩
    flags := flags
    next := ?_ }), .of_ctl rfl ?_, fun _ _ => .of_ne rfl fun hn => absurd hn notLate.2.2.1⟩
  · by_cases format : c.format = formatPartial
    · rw [if_pos format] at next ⊢
      exact next
    · rw [if_neg format] at next ⊢
      exact next.imp_right And.left
  · exact {
      init := h.ctl.init
      held := h.ctl.held
      first := fun hs => by rw [show state.early = false from notLate.2.1] at hs; cases hs
      fresh := fun hs => by cases hs
      loose := fun _ _ => loose
      accepted := fun _ => ⟨hdrs, h.sums.imageHdr, hdr⟩
      image := fun hs => by
        refine ⟨rfl, ?_⟩
        by_cases format : c.format = formatPartial
        · rw [if_pos format] at next
          rw [next] at hs
          cases hs
        · rw [if_neg format] at next
          rcases next with next | ⟨-, pos⟩
          · rw [next] at hs
            cases hs
          · exact pos
      disconnect := fun _ => rfl
      current := fun _ hs => by
        by_cases format : c.format = formatPartial
        · rw [if_pos format] at next
          rw [next] at hs
          cases hs
        · refine ⟨?_, flags format _⟩
          rw [show c.imageIndex = 0 from fresh.1, h.sums.total]
          exact pos
      full := fun format _ => by
        refine ⟨flags format, ?_⟩
        rw [if_neg format] at next
        rcases next with rfl | ⟨rfl, -⟩ <;> rfl
      count := fun _ held => absurd loose held
      late := fun hs => by rw [show state.late = false from notLate.1] at hs; cases hs
      dup := fun _ => fresh.2.2.1
      trial := fun _ => h.ctl.trial (.inr (by rw [show _ = _ from h.state]; rfl))
      config := h.ctl.config }

theorem dropConfigBuf_moves {P : St → List Event → Prop}
    (note : ∀ s l n, P s l → P s (l ++ [.note n]))
    (drop : Sound (Move e retry) P (updateCxt fun c => { c with configBuf := none })
      fun _ s l => P s l) :
    Sound (Move e retry) P dropConfigBuf fun _ s l => P s l := by
  unfold dropConfigBuf
  refine .read_bind fun a => ?_
  refine .pre (P := P) (.ite (fun _ => ?_) fun _ => .pure _ fun s l h => h) fun s l h => h.2
  exact .andThen (note_moves (Q := fun _ s l => P s l) _ fun s l h => note s l _ h)
    (fun _ _ _ h => h) fun _ => drop

/-- All images are still to be downloaded. -/
def AllChecked (raw hdrs : List ImageHdr) (a : EntrySums) (s : St) (l : List Event) : Prop :=
  ∃ c, Checked raw hdrs a c s l ∧ ∀ i, c.downloadFlag i = true

theorem dropChecked_moves {raw hdrs : List ImageHdr} {a : EntrySums} :
    Sound (Move e retry) (AllChecked raw hdrs a)
      (updateCxt fun c => { c with configBuf := none })
      fun _ s l => AllChecked raw hdrs a s l := by
  rintro s l ⟨c, h, flags⟩
  simp only [updateCxt_run h.cxt, List.append_nil]
  refine ⟨moves_early (f := fun c => { c with configBuf := none }) ⟨fun c => rfl⟩ h.cxt h.first
    s.imageHdr, _, { h with cxt := rfl, ctl := ?_, sums := { h.sums with } }, flags⟩
  exact { h.ctl with config := by simp }

/-- The entries are checked and the session goes on. -/
theorem acceptEntries_moves {raw : List ImageHdr} (pos : 0 < raw.length)
    (small : ∀ r ∈ raw, r.diskSize < 2 ^ 32 ∧ r.imageLength < 2 ^ 32) {hdrs : List ImageHdr}
    {a : EntrySums} (checked : checkEntries raw ⟨0, 0, false, false, 0⟩ = (hdrs, some a)) :
    Sound (Move e retry) (AllChecked raw hdrs a) (do
      let c ← getCxt
      if c.format ≠ formatPartial then
        updateCxt fun c => { c with
          isFirst := false
          fwUpgradeState := if c.bufLen ≤ c.bufOffset then .receiveData else .processImage }
        Act.emit (.images raw hdrs c.downloadFlag)
      else if !(← malloc .hashBuf) then Act.fail .insufficientMemory
      else
        checkDownload e (activeFwd (← Act.read).rram) 0 hdrs
        free .hashBuf
        let c ← getCxt
        updateCxt fun c => { c with isFirst := false, fwUpgradeState := .disconnectServer }
        Act.emit (.images raw hdrs c.downloadFlag)) Accepted' := by
  refine getCxt_bind (fun s l h => h.imp fun c h => h.1.cxt) fun c => .ite (fun format => ?_)
    fun format => ?_
  · rintro s l ⟨hc, c', h, flags⟩
    have := h.cxt
    rw [hc] at this
    cases this
    simp only [Act.bind_run, updateCxt_run hc, Act.andThen_ok, Act.emit_run, List.nil_append]
    refine accept_moves h pos small checked (fun _ => flags) ?_
    rw [if_neg format]
    by_cases more : c.bufLen ≤ c.bufOffset
    · exact .inl (if_pos more)
    · exact .inr ⟨if_neg more, by omega⟩
  · refine .pre (P := fun s l => AllChecked raw hdrs a s l ∧ Loading raw hdrs a s l) ?_ ?_
    · refine .andThen (malloc_moves .hashBuf (Q := fun _ s l => AllChecked raw hdrs a s l ∧
        Loading raw hdrs a s l) fun s l oom n ok h => ?_) (fun err s l ⟨⟨c, h, flags⟩, _⟩ => ?_)
        fun ok => .ite (fun _ => .fail _ fun s l ⟨⟨c, h, flags⟩, _⟩ => h.inHeader flags)
          fun _ => ?_
      · have quiet := quiet_oom s oom
        exact ⟨h.1.imp fun c h => ⟨(h.1.quiet quiet).note n, h.2⟩,
          h.2.imp fun c h => ⟨(h.1.quiet quiet).note n, h.2⟩⟩
      · exact h.inHeader flags
      refine .read_bind fun b => ?_
      refine .pre (P := Loading raw hdrs a) ?_ fun s l h => h.2.2
      refine Loads.bind (checkDownload_moves _ _ _) ?_
      refine Loads.bind (note_moves (.free .hashBuf) fun s l h =>
        ⟨rfl, h.imp fun c h => ⟨h.1.note _, h.2⟩⟩) ?_
      refine getCxt_bind (fun s l h => h.imp fun c h => h.1.cxt) fun c => ?_
      rintro s l ⟨hc, c', h, format'⟩
      have := h.cxt
      rw [hc] at this
      cases this
      simp only [Act.bind_run, updateCxt_run hc, Act.andThen_ok, Act.emit_run, List.nil_append]
      refine accept_moves h pos small checked (fun no => absurd format' no) ?_
      rw [if_pos format']
    · rintro s l ⟨hc, c', h, flags⟩
      have := h.cxt
      rw [hc] at this
      cases this
      exact ⟨⟨c, h, flags⟩, c, h, by simpa using format⟩

/-- The entries are stored, checked or not. -/
theorem entries_moves {n : Nat} (hdrs : Option (List ImageHdr)) :
    Sound (Move e retry) (fun s l => Hashed s l ∧ ∃ c, s.cxt = some c ∧ c.totalImages = n)
      (Act.update fun s => { s with imageHdr := hdrs } : M Unit) fun r s l =>
        r = .ok () ∧ InHeader s l ∧ HashOk l ∧ (∃ c, s.cxt = some c ∧ c.totalImages = n) ∧
          s.imageHdr = hdrs := by
  rintro s l ⟨⟨⟨c, hc, ctl, state⟩, hash⟩, total⟩
  have early : c.fwUpgradeState.early = true := by rw [state]; rfl
  have first := ctl.first early
  have moves : Moves e retry (s, l) _ := moves_early (f := id) ⟨fun c => rfl⟩ hc first hdrs
  rw [id, ← hc] at moves
  simp only [Act.update_run, List.append_nil]
  exact ⟨moves, trivial, ⟨c, hc, ctl.header first early rfl rfl (ctl.fresh first).2.2.2 ctl.config
    rfl, state⟩, hash, total, trivial⟩

theorem acceptConfigFile_moves {b : List UInt8} (ok : ConfigOk b) :
    Sound (Move e retry) InHeader (acceptConfigFile e b) Accepted' := by
  have stop : ∀ {P : St → List Event → Prop} (err : Status), (∀ s l, P s l → InHeader s l) →
      Sound (Move e retry) P (Act.fail err : M Unit) Accepted' :=
    fun err h => .fail _ h
  unfold acceptConfigFile
  refine .andThen (header_update ⟨fun c => rfl⟩ ⟨fun c => rfl, fun c => .inl rfl⟩)
    (fun _ _ _ h => h) fun _ => ?_
  generalize hdrPart1Len + hdrNumImages b * imageHdrLen = offset
  generalize heq : ((b.drop offset).take hashLen == e.sha (b.take offset)) = equal
  have hashed : Sound (Move e retry) InHeader
      (Act.emit (.hashed .none (b.take offset) equal) : M Unit)
      fun _ s l => InHeader s l ∧ (equal = true → HashOk l) := by
    refine .emit (fun s l h => ?_) fun s l h => ⟨h, fun heq => ⟨b.take offset, ?_⟩⟩
    · obtain ⟨c, hc, ctl, state⟩ := h
      exact .single (.headerHash _ _ hc (ctl.first (by rw [state]; rfl)))
    · rw [heq]
      exact mem_session_last (by simp)
  refine .andThen hashed (fun _ _ _ h => h.1) fun _ => .ite (fun _ => stop _ fun s l h => h.1)
    fun right => ?_
  refine .pre (P := Hashed) ?_ fun s l h => ⟨h.1, h.2 (by simpa using right)⟩
  refine .andThen (K := fun _ s l => Hashed s l) ?_ (fun _ _ _ h => h.1) fun _ => ?_
  · refine .orFail ((writeFwdHeader_moves b).post ?_)
    intro r s l h
    cases r <;> exact h
  -- the number of images is kept up to the checks of their sums
  refine .andThen (K := fun r s l => r = .ok () ∧ Hashed s l ∧
    ∃ c, s.cxt = some c ∧ c.totalImages = hdrNumImages b) ?_ (fun _ _ _ h => by cases h.1)
    fun _ => ?_
  · rintro s l ⟨h, hash⟩
    have update : Sound (Move e retry) InHeader
        (updateCxt fun c => { c with totalImages := hdrNumImages b }) _ :=
      header_update ⟨fun c => rfl⟩ ⟨fun c => rfl, fun c => .inl rfl⟩
    obtain ⟨moves, h'⟩ := update s l h
    obtain ⟨c, hc, ctl, state⟩ := h
    simp only [updateCxt_run hc, List.append_nil] at moves h' ⊢
    exact ⟨moves, trivial, ⟨h', hash⟩, _, rfl, rfl⟩
  refine .andThen (malloc_moves .imageHdr (Q := fun _ s l => Hashed s l ∧
    ∃ c, s.cxt = some c ∧ c.totalImages = hdrNumImages b) fun s l oom n ok h => ?_)
    (fun _ _ _ h => h.1.1) fun got => .ite (fun _ => ?_) fun _ => ?_
  · exact ⟨(h.2.1.quiet (quiet_oom s oom)).note n, h.2.2⟩
  · refine .andThen (entries_moves none) (fun err s l h => by cases h.1) fun _ => ?_
    exact stop _ fun s l h => h.2.1
  refine .andThen (entries_moves (some _)) (fun err s l h => by cases h.1) fun _ => ?_
  have length := parseImageHdrs_length (hdrNumImages b) (b.drop hdrPart1Len)
  have small := parseImageHdrs_small (hdrNumImages b) (b.drop hdrPart1Len)
  generalize parseImageHdrs (hdrNumImages b) (b.drop hdrPart1Len) = raw at length small ⊢
  cases checked : checkEntries raw ⟨0, 0, false, false, 0⟩ with
  | mk hdrs sums =>
    cases sums with
    | none => exact stop _ fun s l h => h.2.1
    | some a =>
      refine .andThen ((@checkSums_moves e retry raw hdrs a).pre ?_)
        (fun _ _ _ h => h.1) fun _ => ?_
      · rintro s l ⟨-, ⟨c, hc, ctl, state⟩, hash, ⟨c', hc', total⟩, imageHdr⟩
        rw [hc] at hc'
        cases hc'
        exact ⟨c, hc, ctl, state, hash, total.trans length.symm, imageHdr⟩
      refine .andThen ((dropConfigBuf_moves (P := AllChecked raw hdrs a)
        (fun s l n h => h.imp fun c h => ⟨h.1.note n, h.2⟩) dropChecked_moves).pre
        fun s l h => h.2 rfl) (fun err s l ⟨c, h, flags⟩ => h.inHeader flags) fun _ => ?_
      exact acceptEntries_moves (by rw [length]; exact ok.pos) small checked

theorem processConfigFile_moves (buf : Mem) {note : Nat → Event}
    (notes : ∀ n, ∃ m, note n = .note m) :
    Sound (Move e retry) InHeader (processConfigFile e buf note) Left := by
  unfold processConfigFile
  have left : ∀ (r : Except Status Unit) s l, InHeader s l → Left r s l :=
    fun r s l h => h.left (by simp)
  refine .cleanUp (M := fun _ s l => InHeader s l) ?_ fun err => ?_
  · refine .andThen (receiveConfigFile_moves buf notes) (fun _ _ _ h => h) fun b => ?_
    cases b with
    | none => exact .pure _ fun s l h => In.left (by simp) h
    | some b =>
      refine .assume (φ := ConfigOk b) (fun s l h => h.2) fun ok => ?_
      refine ((acceptConfigFile_moves ok).pre fun s l h => h.1).post fun r s l h => ?_
      cases r <;> exact h
  · refine (dropConfigBuf_moves (P := InHeader) (fun s l n h => h)
      (header_update ⟨fun c => rfl⟩ ⟨fun c => rfl, fun c => .inr (by simp)⟩)).post
      fun r s l h => left _ s l h

end Qapp.Fw
