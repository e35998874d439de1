import Qapp.Fw.Session

/-!
# Code that keeps the progress of the session

Most of the code changes neither what has been received nor what is to be received
next. Each function is shown once to stay within the narrowest scope that covers it.
-/

namespace Qapp.Fw
open Traced

/-- What a piece of code may do: the events it emits, what it keeps of the session, the
states it enters, and whether it may end the session. -/
structure Scope (β : Type) where
  event : Event → Bool
  keeps : St → Cxt → β
  enters : FwState → Bool
  ends : Bool

variable {β γ α : Type}

structure Scope.Meets (S : Scope β) (s : St) (l : List Event) (t : St) : Prop where
  events : ∀ w ∈ l, S.event w = true
  cxt : ∀ d, t.cxt = some d → ∃ c, s.cxt = some c ∧ S.keeps t d = S.keeps s c ∧
    (d.fwUpgradeState = c.fwUpgradeState ∨ S.enters d.fwUpgradeState = true)
  stays : S.ends = false → s.cxt.isSome → t.cxt.isSome

def Scope.frame (S : Scope β) : Frame St Event where
  rel := S.Meets
  refl _ := ⟨fun _ mem => absurd mem List.not_mem_nil, fun d hd => ⟨d, hd, rfl, .inl rfl⟩,
    fun _ some => some⟩
  trans := by
    intro s t u l k h h'
    constructor
    · intro w mem
      exact (List.mem_append.mp mem).elim (h.events w) (h'.events w)
    · intro d hd
      obtain ⟨c, hc, same', state'⟩ := h'.cxt d hd
      obtain ⟨b, hb, same, state⟩ := h.cxt c hc
      apply Exists.intro b
      apply And.intro hb
      apply And.intro (same'.trans same)
      obtain eq | entered := state'
      · rw [eq]
        exact state
      · exact .inr entered
    · exact fun open_ some => h'.stays open_ (h.stays open_ some)

namespace Scope
variable {S : Scope β} {m : M α}

/-- What keeps to a scope keeps to a wider one. -/
theorem widen {T : Scope γ} (events : ∀ w, S.event w = true → T.event w = true)
    (keeps : ∀ s t c d, S.keeps t d = S.keeps s c → T.keeps t d = T.keeps s c)
    (enters : ∀ x, S.enters x = true → T.enters x = true) (ends : T.ends = false → S.ends = false)
    (h : Within S.frame m) : Within T.frame m := by
  constructor
  intro s
  obtain ⟨emitted, cxt, stays⟩ := h.run s
  constructor
  · exact fun w mem => events w (emitted w mem)
  · intro d hd
    obtain ⟨c, hc, same, state⟩ := cxt d hd
    exact ⟨c, hc, keeps _ _ _ _ same, state.imp_right (enters _)⟩
  · exact fun open_ => stays (ends open_)

theorem update {f : St → St} (cxt : ∀ s, (f s).cxt = s.cxt)
    (keeps : ∀ s c, S.keeps (f s) c = S.keeps s c) : Within S.frame (Act.update f : M Unit) := by
  apply Within.update
  intro s
  constructor
  · exact fun _ mem => absurd mem List.not_mem_nil
  · exact fun d hd => ⟨d, (cxt s).symm.trans hd, keeps s d, .inl rfl⟩
  · exact fun _ some => (congrArg Option.isSome (cxt s)).trans some

theorem emit {w : Event} (event : S.event w = true) : Within S.frame (Act.emit w : M Unit) :=
  .emit fun _ => ⟨fun _ mem => List.mem_singleton.mp mem ▸ event,
    fun d hd => ⟨d, hd, rfl, .inl rfl⟩, fun _ some => some⟩

theorem updateCxt {f : Cxt → Cxt}
    (keeps : ∀ s c, S.keeps { s with cxt := s.cxt.map f } (f c) = S.keeps s c)
    (state : ∀ c, (f c).fwUpgradeState = c.fwUpgradeState ∨
      S.enters (f c).fwUpgradeState = true) : Within S.frame (updateCxt f) := by
  apply Within.update
  intro s
  constructor
  · exact fun _ mem => absurd mem List.not_mem_nil
  · intro d hd
    obtain ⟨c, hc, rfl⟩ := Option.map_eq_some_iff.mp hd
    exact ⟨c, hc, keeps s c, state c⟩
  · exact fun _ some => Option.isSome_map.trans some

theorem getCxt : Within S.frame getCxt :=
  .bind .read fun s => by
    cases s.cxt with
    | none => exact .fail _
    | some c => exact .pure _

end Scope

/-! ## The narrowest scope -/

/-- The states that read the packet. -/
def FwState.consumes : FwState → Bool
  | .processConfigFile | .processImage => true
  | _ => false

/-- The states between packets and images. -/
def FwState.passive (x : FwState) : Bool := !x.consumes && !x.late

/-- A read of the packet, or through the NULL buffer. -/
def Event.reads : Event → Bool
  | .note (.packet _ _) | .note (.nullBuffer _) => true
  | _ => false

/-- Events that neither store nor verify nor announce images. -/
def Event.apart : Event → Bool
  | .op (.image _ _ _) (.write _ _) _ | .op (.image _ _ _) (.rramWrite _ _) _ => false
  | .hashed (some _) _ _ | .images _ _ _ => false
  | _ => true

/-- A read of the header array. -/
def Event.looksUp : Event → Bool
  | .note (.header _ _) => true
  | _ => false

/-- Neither the packet nor the header array is read. -/
def Event.hidden (w : Event) : Bool := !w.reads && !w.looksUp

def Event.plain (w : Event) : Bool := w.hidden && w.apart

theorem Event.apart_of_plain {w : Event} (plain : w.plain = true) : w.apart = true :=
  (Bool.and_eq_true_iff.mp plain).2

theorem Event.plain_erase (who : Issuer) (addr size : Nat) (out : Outcome) :
    (Event.op who (.erase addr size) out).plain = true := by
  cases who <;> rfl

/-- The context without what is not about the progress of the upload. -/
def Cxt.progress (c : Cxt) : Cxt := { c with
  hiddenImagesCount := 0
  fwUpgradeState := .notStart
  trialMemStart := 0
  trialMemSize := 0
  trialFwdIdx := 0
  trialSblStart := 0
  trialSblSize := 0
  trialSblIdx := 0
  partitionHdl := none
  duplicateIndex := 0 }

def steady : Scope (Option (List ImageHdr) × Cxt) where
  event := Event.plain
  keeps s c := (s.imageHdr, c.progress)
  enters _ := false
  ends := false

/-- Between packets the state may change; the end of a session drops the header array, too. -/
def closing : Scope Cxt where
  event := Event.plain
  keeps _ c := c.progress
  enters := FwState.passive
  ends := true

abbrev Steady (m : M α) : Prop := Within steady.frame m
abbrev Closing (m : M α) : Prop := Within closing.frame m

theorem Closing.of {m : M α} (h : Steady m) : Closing m :=
  Scope.widen (S := steady) (fun _ h => h) (fun _ _ _ _ same => congrArg Prod.snd same)
    (fun _ never => nomatch never) (fun never => nomatch never) h

theorem steady_update {f : St → St} (kept : ∀ s, (f s).cxt = s.cxt ∧ (f s).imageHdr = s.imageHdr) :
    Steady (Act.update f : M Unit) :=
  Scope.update (fun s => (kept s).1) fun s c => congrArg (·, c.progress) (kept s).2

theorem steady_emit {w : Event} (plain : w.plain = true) : Steady (Act.emit w : M Unit) :=
  Scope.emit plain

/-- An update of the context beside the progress. -/
theorem steady_tune {f : Cxt → Cxt} (same : ∀ c, (f c).progress = c.progress)
    (state : ∀ c, (f c).fwUpgradeState = c.fwUpgradeState) : Steady (updateCxt f) :=
  Scope.updateCxt (fun _ c => Prod.ext rfl (same c)) fun c => .inl (state c)

theorem setState_closing {state : FwState} (passive : state.passive = true) :
    Closing (setState state) :=
  Scope.updateCxt (fun _ _ => rfl) fun _ => .inr passive

theorem getCxt_steady : Steady getCxt := Scope.getCxt

/-! ## The devices -/

theorem malloc_steady (b : Block) : Steady (malloc b) :=
  .bind .read fun _ => .bind (steady_update fun _ => ⟨rfl, rfl⟩) fun _ =>
    .ite (.bind (steady_emit rfl) fun _ => .pure _) (.bind (steady_emit rfl) fun _ => .pure _)

theorem free_steady (b : Block) : Steady (free b) := steady_emit rfl

theorem flashRead_steady (e : Env) (addr size : Nat) : Steady (flashRead e addr size) :=
  .bind .read fun s => .ite (.pure _) <| .bind (steady_update fun _ => ⟨rfl, rfl⟩) fun _ => by
    cases s.readFault <;> exact .pure _

theorem rramRead_steady : Steady rramRead :=
  .bind .read fun s => .bind (steady_update fun _ => ⟨rfl, rfl⟩) fun _ => by
    cases s.readFault <;> exact .pure _

/-- A write is its own event, beside what is steady. -/
theorem flashWrite_within {F : Frame St Event} (of : ∀ {α : Type} {m : M α}, Steady m → Within F m)
    (e : Env) {who : Issuer} {addr : Nat} {bytes : List UInt8}
    (emits : ∀ out, Within F (Act.emit (.op who (.write addr bytes) out) : M Unit)) :
    Within F (flashWrite e who addr bytes) :=
  .bind .read fun s => .ite (.bind (emits _) fun _ => .fail _) <|
    .bind (of (steady_update fun _ => ⟨rfl, rfl⟩)) fun _ => by
      cases s.opFault with
      | none => exact .bind (of (steady_update fun _ => ⟨rfl, rfl⟩)) fun _ => emits _
      | some left =>
        exact .bind (of (steady_update fun _ => ⟨rfl, rfl⟩)) fun _ =>
          .bind (emits _) fun _ => .fail _

theorem rramWrite_within {F : Frame St Event} (of : ∀ {α : Type} {m : M α}, Steady m → Within F m)
    {who : Issuer} {addr : Nat} {bytes : List UInt8}
    (emits : ∀ out, Within F (Act.emit (.op who (.rramWrite addr bytes) out) : M Unit)) :
    Within F (rramWrite who addr bytes) :=
  .bind .read fun s => .bind (of (steady_update fun _ => ⟨rfl, rfl⟩)) fun _ => by
    cases s.opFault with
    | none => exact .bind (of (steady_update fun _ => ⟨rfl, rfl⟩)) fun _ => emits _
    | some left =>
      exact .bind (of (steady_update fun _ => ⟨rfl, rfl⟩)) fun _ =>
        .bind (emits _) fun _ => .fail _

theorem flashErase_steady (e : Env) (who : Issuer) (startBlock numBlocks : Nat) :
    Steady (flashErase e who startBlock numBlocks) :=
  .bind .read fun s => .ite (.bind (steady_emit (Event.plain_erase ..)) fun _ => .fail _) <|
    .bind (steady_update fun _ => ⟨rfl, rfl⟩) fun _ => by
      cases s.opFault with
      | none => exact .bind (steady_update fun _ => ⟨rfl, rfl⟩) fun _ => steady_emit (Event.plain_erase ..)
      | some left =>
        exact .bind (steady_update fun _ => ⟨rfl, rfl⟩) fun _ => .bind (steady_emit (Event.plain_erase ..)) fun _ => .fail _

theorem flashWrite_steady (e : Env) {who : Issuer} {addr : Nat} {bytes : List UInt8}
    (plain : ∀ out, (Event.op who (.write addr bytes) out).plain = true) :
    Steady (flashWrite e who addr bytes) :=
  flashWrite_within (fun h => h) e fun out => steady_emit (plain out)

/-! ## Descriptors and partitions -/

theorem validation_steady : Steady validation :=
  .bind .read fun _ => .ite (.pure _) (.fail _)

theorem releaseHandle_steady (k : Nat) : Steady (Act.update (releaseHandle k) : M Unit) :=
  steady_update fun _ => ⟨rfl, rfl⟩

theorem setHandle_steady (k : Nat) (c : Client) : Steady (Act.update (setHandle k c) : M Unit) :=
  steady_update fun _ => ⟨rfl, rfl⟩

theorem eraseFwd_steady (e : Env) (fwdIdx : Nat) : Steady (eraseFwd e fwdIdx) :=
  .bind validation_steady fun _ => .ite (.fail _) (flashErase_steady ..)

theorem setFwdInfo_steady (e : Env) (fwdIdx : Nat) (info : FwdInfo) (value : Nat) :
    Steady (setFwdInfo e fwdIdx info value) :=
  .bind validation_steady fun _ => .ite (.fail _) (flashWrite_steady e fun _ => rfl)

theorem getFwdInfo_steady (e : Env) (fwdIdx : Nat) (info : FwdInfo) (old : Nat) :
    Steady (getFwdInfo e fwdIdx info old) :=
  .bind .read fun _ => .ite (.bind (flashRead_steady ..) fun ⟨_, _⟩ => .pure _) (.pure _)

theorem getPartitionBaseOnGolden_steady (e : Env) : Steady (getPartitionBaseOnGolden e) :=
  .bind .read fun s => .ite (by
    cases findFde s.rram fun i =>
        fdeId s.rram i == fdeIdApp && fdeRank s.rram i == fdeRankGolden with
    | some _ => exact .pure _
    | none =>
      exact .bind (flashRead_steady ..) fun ⟨_, _⟩ => .ite (.ite (.pure _) (.pure _)) (.pure _))
    (.pure _)

theorem allocMemParams_steady : Steady allocMemParams :=
  .bind .read fun _ => .ite (.pure _) <| .bind (malloc_steady _) fun _ =>
    .ite (steady_update fun _ => ⟨rfl, rfl⟩) (.fail _)

theorem init_steady (e : Env) : Steady (init e) :=
  .bind .read fun _ => .ite (.pure _) <| .ite (.fail _) <| .bind allocMemParams_steady fun _ =>
    .bind (steady_update fun _ => ⟨rfl, rfl⟩) fun _ => .bind (getPartitionBaseOnGolden_steady e) fun _ =>
      .bind (steady_update fun _ => ⟨rfl, rfl⟩) fun _ => .ite (.fail _) (steady_update fun _ => ⟨rfl, rfl⟩)

theorem scanLoop_steady (e : Env) (is : List Nat) (a : Scan) : Steady (scanLoop e is a) := by
  induction is generalizing a with
  | nil => exact .pure _
  | cons i is ih =>
    exact .bind (getFwdInfo_steady ..) fun ⟨_, _⟩ => .ite (.pure _) <|
      .bind (getFwdInfo_steady ..) fun ⟨_, _⟩ => .ite (.pure _) <|
      .bind (getFwdInfo_steady ..) fun ⟨_, _⟩ => .ite (.pure _) <|
      .bind (getFwdInfo_steady ..) fun ⟨_, _⟩ => .ite (.pure _) (ih _)

theorem getTrialActiveFwdIndex_steady (e : Env) : Steady (getTrialActiveFwdIndex e) :=
  .bind (.attempt (init_steady e)) fun
    | .error _ => .pure _
    | .ok _ => .bind .read fun _ => .ite (.pure _) <|
      .ite (.bind (scanLoop_steady ..) fun ⟨_, _⟩ => .pure _) <|
      .bind (getFwdInfo_steady ..) fun ⟨_, _⟩ => .ite (.pure _) <|
      .bind (scanLoop_steady ..) fun ⟨_, _⟩ => .pure _

theorem findPartition_steady (e : Env) (fwdIdx id : Nat) : Steady (findPartition e fwdIdx id) :=
  .bind validation_steady fun _ => .ite (.fail _) <| .bind .read fun s => by
    cases freeHandle s with
    | none => exact .fail _
    | some k =>
      refine .bind (flashRead_steady ..) fun ⟨_, m⟩ => .ite (.fail _) ?_
      cases entryOf m fwdIdx id with
      | none => exact .fail _
      | some i => exact .bind (setHandle_steady ..) fun _ => .pure _

theorem firstPartition_steady (e : Env) (fwdIdx : Nat) : Steady (firstPartition e fwdIdx) :=
  .bind validation_steady fun _ => .ite (.fail _) <| .bind .read fun s => by
    cases freeHandle s with
    | none => exact .fail _
    | some k =>
      exact .bind (flashRead_steady ..) fun ⟨_, _⟩ => .ite (.fail _) <| .ite (.fail _) <|
        .bind (setHandle_steady ..) fun _ => .pure _

theorem nextPartition_steady (e : Env) (curr : Nat) : Steady (nextPartition e curr) :=
  .bind validation_steady fun _ => .bind .read fun s => .ite (.fail _) <| by
    cases freeHandle s with
    | none => exact .fail _
    | some k =>
      exact .bind (flashRead_steady ..) fun ⟨_, _⟩ => .ite (.fail _) <| .ite (.fail _) <|
        .ite (.fail _) <| .bind (setHandle_steady ..) fun _ => .pure _

theorem createPartition_steady (e : Env) (fwdIdx id version start size : Nat) :
    Steady (createPartition e fwdIdx id version start size) :=
  .bind validation_steady fun _ => .ite (.fail _) <| .ite (.fail _) <| .bind .read fun s => by
    cases freeHandle s with
    | none => exact .fail _
    | some k =>
      refine .bind (flashRead_steady ..) fun ⟨_, m⟩ => .ite (.fail _) ?_
      cases entryOf m fwdIdx imageUnused with
      | none => exact .fail _
      | some i =>
        exact .bind (flashWrite_steady e fun _ => rfl) fun _ => .bind (setHandle_steady ..) fun _ => .pure _

theorem erasePartition_steady (e : Env) (image hdl : Option Nat) (offset nbytes : Nat) :
    Steady (erasePartition e image hdl offset nbytes) :=
  .bind .read fun _ => by
    cases hdl with
    | none => exact .fail _
    | some k =>
      exact .ite (.fail _) <| .ite (.pure _) <| .ite (.fail _) <| .ite (.fail _) <|
        flashErase_steady ..

theorem writePartition_within {F : Frame St Event}
    (of : ∀ {α : Type} {m : M α}, Steady m → Within F m) (e : Env) {image hdl : Option Nat}
    {offset : Nat} {bytes : List UInt8} {addr : Nat}
    (emits : ∀ c addr out, Within F (Act.emit (.op (issuer image c offset) (.write addr bytes) out) :
      M Unit))
    (emits' : ∀ c addr out, Within F (Act.emit (.op (issuer image c offset)
      (.rramWrite addr bytes) out) : M Unit)) :
    Within F (writePartition e image hdl offset bytes addr) :=
  .bind .read fun _ => by
    cases hdl with
    | none => exact .fail _
    | some k =>
      exact .ite (.fail _) <| .ite (.ite (.bind (of (malloc_steady _)) fun _ =>
        .ite (.bind (.cleanUp (rramWrite_within of (emits' _ _)) (of (free_steady _))) fun _ =>
          of (free_steady _)) (.fail _)) (rramWrite_within of (emits' _ _)))
        (flashWrite_within of e (emits _ _))

/-- A partition that is not for an image of the header. -/
theorem writePartition_steady (e : Env) (hdl : Option Nat) (offset : Nat) (bytes : List UInt8)
    (addr : Nat) : Steady (writePartition e none hdl offset bytes addr) :=
  writePartition_within (fun h => h) e (fun _ _ _ => steady_emit rfl) fun _ _ _ => steady_emit rfl

theorem readPartition_steady (e : Env) (hdl : Option Nat) (offset maxBytes : Nat) :
    Steady (readPartition e hdl offset maxBytes) :=
  .bind .read fun _ => by
    cases hdl with
    | none => exact .pure _
    | some k =>
      exact .ite (.pure _) <| .ite (.bind rramRead_steady fun ⟨_, _⟩ => .pure _)
        (.bind (flashRead_steady ..) fun ⟨_, _⟩ => .pure _)

theorem partitionEnd_steady (e : Env) (fwdIdx id imgStart : Nat) :
    Steady (partitionEnd e fwdIdx id imgStart) :=
  .bind (.attempt (findPartition_steady ..)) fun
    | .error _ => .pure _
    | .ok _ => .bind .read fun _ => .bind (releaseHandle_steady _) fun _ => .pure _

theorem getFirst_steady (e : Env) : Steady (getFirstProgrammingImageStartAddress e) :=
  .bind .read fun _ => .bind (partitionEnd_steady ..) fun _ => .bind (partitionEnd_steady ..) fun _ =>
    .bind (partitionEnd_steady ..) fun _ => .bind (partitionEnd_steady ..) fun _ => .pure _

theorem endAddrLoop_steady (e : Env) (fuel hdl endAddr : Nat) :
    Steady (endAddrLoop e fuel hdl endAddr) := by
  induction fuel generalizing hdl endAddr with
  | zero => exact .bind (releaseHandle_steady _) fun _ => .pure _
  | succ fuel ih =>
    exact .bind (.attempt (nextPartition_steady ..)) fun
      | .error _ => .bind (releaseHandle_steady _) fun _ => .pure _
      | .ok _ => .bind (releaseHandle_steady _) fun _ => .bind .read fun _ => ih _ _

theorem getImageSetEndAddr_steady (e : Env) (fwdNum : Nat) : Steady (getImageSetEndAddr e fwdNum) :=
  .bind (getFwdInfo_steady ..) fun ⟨_, _⟩ => .ite (.bind (.orFail (firstPartition_steady ..) _) fun _ =>
    .bind .read fun _ => endAddrLoop_steady ..) (.fail _)

theorem selectTrialFwd_steady (e : Env) : Steady (selectTrialFwd e) :=
  .bind .read fun _ => .ite (.fail _) <| .bind (getFirst_steady e) fun _ =>
    .bind (getTrialActiveFwdIndex_steady e) fun ⟨_, _⟩ =>
      .ite (.ite (.bind (getImageSetEndAddr_steady ..) fun _ => .ite (.pure _) (.pure _)) (.pure _))
        (.bind (getImageSetEndAddr_steady ..) fun _ => .pure _)

theorem setSblTrialFde_steady (sblTrialIdx version : Nat) :
    Steady (setSblTrialFde sblTrialIdx version) :=
  .bind .read fun _ => .ite (.fail _) <| .ite (.fail _)
    (rramWrite_within (fun h => h) fun _ => steady_emit rfl)

/-! ## The session -/

theorem releasePartition_steady : Steady releasePartition := by
  apply Within.update
  intro s
  constructor
  · exact fun _ mem => absurd mem List.not_mem_nil
  · intro d hd
    cases hc : s.cxt with
    | none =>
      simp only [hc] at hd
      cases hd
    | some c =>
      apply Exists.intro c
      apply And.intro rfl
      cases hk : c.partitionHdl with
      | none =>
        simp only [hc, hk, Option.some.injEq] at hd ⊢
        subst hd
        exact ⟨rfl, .inl rfl⟩
      | some k =>
        simp only [hc, hk, Option.some.injEq] at hd ⊢
        subst hd
        exact ⟨rfl, .inl rfl⟩
  · intro _ some
    obtain ⟨c, hc⟩ := Option.isSome_iff_exists.mp some
    cases hk : c.partitionHdl <;> simp [hc, hk]

theorem openPartition_steady (e : Env) (fwdIdx id : Nat) : Steady (openPartition e fwdIdx id) :=
  .bind (findPartition_steady ..) fun _ => .bind (steady_tune (fun _ => rfl) fun _ => rfl) fun _ =>
    .bind .read fun _ => .pure _

theorem newPartition_steady (e : Env) (image : Option Nat) (id version start size : Nat) :
    Steady (newPartition e image id version start size) :=
  .bind getCxt_steady fun _ => .bind (createPartition_steady ..) fun _ =>
    .bind (steady_tune (fun _ => rfl) fun _ => rfl) fun _ => by
      cases image with
      | none => exact .pure _
      | some i => exact .bind .read fun _ => steady_emit rfl

theorem sessionFin_closing (digestCtx : Bool) : Closing (sessionFin digestCtx) := by
  have free (b : Block) : Closing (free b) := Closing.of (free_steady b)
  have release : Closing releasePartition := Closing.of releasePartition_steady
  have closed : Closing (Act.update fun s => { s with cxt := none } : M Unit) := by
    apply Within.update
    intro s
    constructor
    · exact fun _ mem => absurd mem List.not_mem_nil
    · rintro d ⟨⟩
    · rintro ⟨⟩
  refine .bind .read fun s => ?_
  have last (opened : Bool) : Closing (if opened then do
        releasePartition
        if digestCtx then Fw.free .digest
        Fw.free .context
        Act.update fun s => { s with cxt := none }
      else pure () : M Unit) :=
    .ite (.bind release fun _ => .ite (.bind (free _) fun _ =>
      .bind (free _) fun _ => closed) (.bind (free _) fun _ => closed)) (.pure _)
  have header {m : M Unit} (h : Closing m) : Closing (if s.imageHdr.isSome then do
        Fw.free .imageHdr
        Act.update fun s => { s with imageHdr := none }
        m
      else m) :=
    .ite (.bind (free _) fun _ => .bind (Scope.update (fun _ => rfl) fun _ _ => rfl) fun _ => h) h
  cases s.cxt with
  | none => exact .bind (Closing.of (steady_emit rfl)) fun _ => header (last _)
  | some c =>
    exact .ite (.bind (free _) fun _ => .bind (free _) fun _ => header (last _))
      (.bind (free _) fun _ => header (last _))

theorem checkSums_steady (a : EntrySums) : Steady (checkSums a) :=
  .bind getCxt_steady fun _ => .ite (.fail _) <| .ite (.fail _) <| .ite (.fail _) <|
    .bind .read fun s => by
      cases selectSblTrialFde s.rram with
      | none => exact .fail _
      | some sbl =>
        exact .bind (steady_tune (fun _ => rfl) fun _ => rfl) fun _ => .ite (.fail _) (.pure _)

theorem writeFwdHeader_steady (e : Env) (b : List UInt8) : Steady (writeFwdHeader e b) :=
  .bind getCxt_steady fun _ => .bind (setFwdInfo_steady ..) fun _ =>
    .bind (setFwdInfo_steady ..) fun _ => setFwdInfo_steady ..

theorem createFs1_steady (e : Env) (img : ImageHdr) : Steady (createFs1 e img) :=
  .bind .read fun _ => .bind (.orFail (openPartition_steady ..) _) fun _ =>
    .bind releasePartition_steady fun _ => .ite (.fail _) <| .bind getCxt_steady fun _ =>
      .orFail (newPartition_steady ..) _

theorem eraseAhead_steady (e : Env) (c : Cxt) (writeLen : Nat) : Steady (eraseAhead e c writeLen) :=
  .ite (erasePartition_steady ..) (.pure _)

theorem eraseNext_steady (e : Env) : Steady (eraseNext e) :=
  .bind getCxt_steady fun _ => .ite (erasePartition_steady ..) (.pure _)

theorem copyFs_steady (e : Env) (hdl₁ hdl₂ n offset : Nat) :
    Steady (copyFs e hdl₁ hdl₂ n offset) := by
  induction n generalizing offset with
  | zero => exact .pure _
  | succ n ih =>
    exact .bind (readPartition_steady ..) fun ⟨_, _⟩ => .ite (.fail _) <|
      .bind (.orFail (erasePartition_steady ..) _) fun _ =>
        .bind (.orFail (writePartition_steady ..) _) fun _ => ih _

theorem processDuplicateFs_steady (e : Env) : Steady (processDuplicateFs e) :=
  .bind (malloc_steady _) fun _ => .ite (.fail _) <| .bind .read fun _ =>
    .bind (.attempt (findPartition_steady ..)) fun
      | .error _ => .bind (free_steady _) fun _ => .fail _
      | .ok _ => .bind (.attempt (findPartition_steady ..)) fun
        | .error _ => .bind (free_steady _) fun _ => .bind (releaseHandle_steady _) fun _ => .fail _
        | .ok _ => .bind .read fun _ => .bind (.attempt (copyFs_steady ..)) fun r =>
          .bind (free_steady _) fun _ => .bind (releaseHandle_steady _) fun _ =>
            .bind (releaseHandle_steady _) fun _ => by
              cases r with
              | ok _ => exact .pure _
              | error err => exact .fail _

theorem updateSblFde_steady (e : Env) (c : Cxt) : Steady (updateSblFde e c) :=
  .bind (.attempt (findPartition_steady ..)) fun
    | .ok _ => .bind .read fun _ => .bind (.attempt (setSblTrialFde_steady ..)) fun _ => .pure _
    | .error _ => .pure _

theorem sessionFinalize_closing (e : Env) : Closing (sessionFinalize e) :=
  .bind Scope.getCxt fun _ => .bind (.attempt (Closing.of (setFwdInfo_steady ..))) fun _ =>
    .bind (Closing.of (updateSblFde_steady ..)) fun _ => .bind (sessionFin_closing _) fun _ =>
      .when (Closing.of (steady_emit rfl))

theorem keepPartition_steady (e : Env) (id : Nat) (c : Client) : Steady (keepPartition e id c) :=
  .bind releasePartition_steady fun _ => .bind (.orFail (newPartition_steady ..) _) fun _ =>
    .bind (steady_tune (fun _ => rfl) fun _ => rfl) fun _ => releasePartition_steady

theorem clearRamdump_steady (e : Env) (c : Client) : Steady (clearRamdump e c) :=
  .bind getCxt_steady fun _ => .bind (readPartition_steady ..) fun ⟨_, _⟩ => .ite (.fail _) <|
    .ite (.orFail (erasePartition_steady ..) _) (.pure _)

theorem keepRamdump_steady (e : Env) : Steady (keepRamdump e) :=
  .bind .read fun _ => .bind (.attempt (openPartition_steady ..)) fun
    | .error _ => .pure _
    | .ok _ => .bind (clearRamdump_steady ..) fun _ => keepPartition_steady ..

theorem keepUserdata_steady (e : Env) : Steady (keepUserdata e) :=
  .bind .read fun _ => .bind (.attempt (openPartition_steady ..)) fun
    | .error _ => .pure _
    | .ok _ => keepPartition_steady ..

theorem prepareFs_closing (e : Env) : Closing (prepareFs e) :=
  .bind .read fun _ => .bind (.orFail (Closing.of (openPartition_steady ..)) _) fun _ =>
    .bind (Closing.of (keepPartition_steady ..)) fun _ =>
      .bind (Closing.of (keepRamdump_steady e)) fun _ =>
        .bind (Closing.of (keepUserdata_steady e)) fun _ => setState_closing rfl

theorem getTrialInfo_closing (e : Env) : Closing (getTrialInfo e) :=
  .bind (.orFail (Closing.of (selectTrialFwd_steady e)) _) fun ⟨_, _, _⟩ =>
    .bind (Closing.of (steady_tune (fun _ => rfl) fun _ => rfl)) fun _ => .bind .read fun _ =>
      .ite (.fail _) <| .bind (Closing.of (steady_emit rfl)) fun _ => setState_closing rfl

theorem eraseSecondFs_closing (e : Env) : Closing (eraseSecondFs e) :=
  .bind .read fun _ => .bind (.orFail (Closing.of (openPartition_steady ..)) _) fun _ =>
    .bind Scope.getCxt fun _ => .bind (.orFail (Closing.of (erasePartition_steady ..)) _) fun _ =>
      .bind (Closing.of releasePartition_steady) fun _ => setState_closing rfl

/-- The start of a session, whose context is new. -/
theorem sessionInit_within {F : Frame St Event}
    (of : ∀ {α : Type} {m : M α}, Closing m → Within F m)
    (fresh : Within F (Act.update fun s => { s with cxt := some freshCxt } : M Unit)) (e : Env) :
    Within F (sessionInit e) := by
  have fin (digestCtx : Bool) : Within F (sessionFin digestCtx) := of (sessionFin_closing digestCtx)
  have alloc (b : Block) : Within F (malloc b) := of (Closing.of (malloc_steady b))
  have started : Within F (Act.emit .start : M Unit) := of (Closing.of (steady_emit rfl))
  unfold sessionInit
  apply Within.bind (.attempt (of (Closing.of (init_steady e))))
  intro r
  cases r with
  | error => exact .bind (fin true) fun _ => .fail _
  | ok =>
    apply Within.bind .read
    intro s
    apply Within.ite
    · exact .bind fresh fun _ => started
    · apply Within.bind (alloc _)
      intro context
      apply Within.ite
      · exact .bind (fin true) fun _ => .fail _
      · apply Within.bind (alloc _)
        intro tmpBuffer
        apply Within.ite
        · exact .bind (of (Closing.of (free_steady _))) fun _ => .fail _
        · apply Within.bind fresh
          intro _
          apply Within.bind (alloc _)
          intro digest
          apply Within.ite
          · exact .bind (fin false) fun _ => .fail _
          · exact started

end Qapp.Fw
