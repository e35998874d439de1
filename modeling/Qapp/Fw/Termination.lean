import Qapp.Fw.Rank

/-!
# The session loop ends

Every pass the loop goes on after lowers the rank of the session, in whichever state it is.
-/

namespace Qapp.Fw
open ByteMem Traced
open Relation (ReflTransGen)

/-- The session goes on with a lower rank. -/
def Lower (p : Packet) (s : St) (c : Cxt) (t : St) : Prop :=
  ∃ d, t.cxt = some d ∧ rank p t d < rank p s c

section Pass
variable {e : Env} {p : Packet} {s t : St} {c d : Cxt}

/-! ## States that only lead on -/

/-- The next state, after code that keeps the course. -/
theorem OnCourse.lowers {y : FwState} (alike : OnCourse s.imageHdr { c with fwUpgradeState := y } t d)
    (kind : c.isFirst = true ∨ c.fwUpgradeState.late = true ∧ y.late = true ∨
      c.isFirst = false ∧ c.fwUpgradeState.late = false ∧ y.late = false ∧
        c.imageIndex < c.totalImages)
    (states : statesLeft { c with fwUpgradeState := y } < statesLeft c) :
    rank p t d < rank p s c := by
  have first : d.isFirst = c.isFirst := alike.field Cxt.isFirst fun _ => rfl
  have images : imagesLeft d = imagesLeft c := alike.field imagesLeft fun _ => rfl
  obtain rfl : d.fwUpgradeState = y := alike.state
  have here : statesLeft d = statesLeft { c with fwUpgradeState := d.fwUpgradeState } :=
    alike.field (fun x => statesLeft { x with fwUpgradeState := d.fwUpgradeState }) fun _ => rfl
  refine rank_lt_states (alike.field headerLeft fun _ => rfl) images ?_ (here ▸ states)
  obtain begins | ⟨late, late'⟩ | ⟨full, late, late', inside⟩ := kind
  · rw [dataLeft_first begins, dataLeft_first (first.trans begins)]
  · rw [dataLeft_late late, dataLeft_late late']
  · have index : d.imageIndex = c.imageIndex := alike.field Cxt.imageIndex fun _ => rfl
    have total : d.totalImages = c.totalImages := alike.field Cxt.totalImages fun _ => rfl
    have bytes : bytesLeft p s.imageHdr d = bytesLeft p s.imageHdr c :=
      alike.field (bytesLeft p s.imageHdr) fun _ => rfl
    rw [dataLeft_inside full late inside, dataLeft_inside (first.trans full) late'
      (index ▸ total ▸ inside), alike.imageHdr, bytes]

/-- Code that only keeps the course goes on to the state `y`. -/
theorem onward_lowers {α : Type} {m : M α} {a : α} {y : FwState} (hc : s.cxt = some c)
    (steps : Triple (Has (OnCourse s.imageHdr c)) m
      (Gives fun _ => OnCourse s.imageHdr { c with fwUpgradeState := y }))
    (kind : c.isFirst = true ∨ c.fwUpgradeState.late = true ∧ y.late = true)
    (states : statesLeft { c with fwUpgradeState := y } < statesLeft c) (ok : (m s).res = .ok a) :
    Lower p s c (m s).state := by
  obtain ⟨d, hd, alike⟩ := Gives.elim steps hc (OnCourse.refl s c) ok
  exact ⟨d, hd, alike.lowers (kind.imp_right .inl) states⟩

/-- Only the buffer and the state are set. -/
theorem steer_lowers {n k : Nat} {y : FwState}
    (late : y.late = c.fwUpgradeState.late)
    (states : statesLeft { c with bufLen := n, bufOffset := k, fwUpgradeState := y } <
      statesLeft c) : Lower p s c (s.withCxt
        { c with bufLen := n, bufOffset := k, fwUpgradeState := y }) := by
  refine ⟨_, rfl, rank_lt_states rfl rfl ?_ states⟩
  unfold dataLeft
  rw [late]
  rfl

theorem getTrialInfo_gives : Triple (Has (OnCourse s.imageHdr c)) (getTrialInfo e)
    (Gives fun _ => OnCourse s.imageHdr { c with fwUpgradeState := .eraseFwd }) :=
  gives_bind (course_steady (.orFail (selectTrialFwd_steady e) _)) fun ⟨_, _, _⟩ =>
    gives_bind (course_steady (steady_tune (fun _ => rfl) fun _ => rfl)) fun _ =>
      gives_read fun _ => gives_ite (fun _ => gives_fail) fun _ =>
        gives_bind (course_steady (steady_emit rfl)) fun _ => setState_gives _

theorem eraseSecondFs_gives : Triple (Has (OnCourse s.imageHdr c)) (eraseSecondFs e)
    (Gives fun _ => OnCourse s.imageHdr { c with fwUpgradeState := .prepareFs }) :=
  gives_read fun _ => gives_bind (course_steady (.orFail (openPartition_steady ..) _)) fun _ =>
    gives_bind (course_steady getCxt_steady) fun _ =>
      gives_bind (course_steady (.orFail (erasePartition_steady ..) _)) fun _ =>
        gives_bind (course_steady releasePartition_steady) fun _ => setState_gives _

theorem prepareFs_gives : Triple (Has (OnCourse s.imageHdr c)) (prepareFs e)
    (Gives fun _ => OnCourse s.imageHdr { c with fwUpgradeState := .prepareConnect }) :=
  gives_read fun _ => gives_bind (course_steady (.orFail (openPartition_steady ..) _)) fun _ =>
    gives_bind (course_steady (keepPartition_steady ..)) fun _ =>
      gives_bind (course_steady (keepRamdump_steady e)) fun _ =>
        gives_bind (course_steady (keepUserdata_steady e)) fun _ => setState_gives _

theorem copyImage_keeping (e : Env) (index hdl n offset : Nat) :
    Keeping (copyImage e index hdl n offset) := by
  induction n generalizing offset with
  | zero => exact .pure _
  | succ n ih =>
    exact .bind (Keeping.of (readPartition_steady ..)) fun ⟨_, _⟩ => .bind Scope.getCxt fun _ =>
      .bind (.orFail (Keeping.of (erasePartition_steady ..)) _) fun _ =>
        .bind (.orFail (writePartition_keeping ..) _) fun _ => ih _

theorem duplicateImages_keeping (e : Env) (active : Nat) (imgs : List ImageHdr)
    (ret : Option Status) : Keeping (duplicateImages e active imgs ret) := by
  induction imgs generalizing ret with
  | nil => exact .pure _
  | cons img imgs ih =>
    refine .bind Scope.getCxt fun _ => .ite ?_ ?_
    · refine .bind (.attempt (Keeping.of (findPartition_steady ..))) fun
        | .error _ => .pure _
        | .ok _ => .bind (.attempt (Keeping.of (newPartition_steady ..))) fun
          | .error _ => .bind (Keeping.of (releaseHandle_steady _)) fun _ => .pure _
          | .ok _ => .bind (.attempt (copyImage_keeping ..)) fun _ => ?_
      exact .bind (Keeping.of (releaseHandle_steady _)) fun _ =>
        .bind (Keeping.of releasePartition_steady) fun _ =>
          .bind (keeping_tune (fun _ => rfl) fun _ => rfl) fun _ => ih _
    · exact .bind (keeping_tune (fun _ => rfl) fun _ => rfl) fun _ => ih _

theorem processDuplicateImages_keeping (e : Env) : Keeping (processDuplicateImages e) :=
  .bind .read fun _ => .bind (Keeping.of (malloc_steady _)) fun _ =>
    .ite (.bind (Keeping.of releasePartition_steady) fun _ => .fail _) <|
      .bind (keeping_tune (fun _ => rfl) fun _ => rfl) fun _ =>
        .bind (duplicateImages_keeping ..) fun ret =>
          .bind (Keeping.of releasePartition_steady) fun _ => .bind (Keeping.of (free_steady _)) fun _ => by
            cases ret with
            | none => exact .pure _
            | some err => exact .fail _

/-! ## The header -/

/-- What has been received of the header fixes its length. -/
theorem hdrLength_append {b : List UInt8} (len : hdrPart1Len ≤ b.length) (more : List UInt8) :
    hdrLength (b ++ more) = hdrLength b := by
  have enough : 4 ≤ (b.drop 12).length := by
    rw [List.length_drop]
    exact Nat.le_sub_of_add_le (Nat.le_trans (by decide : 4 + 12 ≤ hdrPart1Len) len)
  unfold hdrLength field
  rw [List.drop_append_of_le_length (Nat.le_trans (by decide : 12 ≤ hdrPart1Len) len),
    List.take_append_of_le_length enough]

theorem hdrLength_lt (b : List UInt8) : hdrLength b < 2 ^ 32 := by
  have len : ((b.drop 12).take 4).length ≤ 4 := List.length_take_le 4 _
  have le : 256 ^ ((b.drop 12).take 4).length ≤ 256 ^ 4 := Nat.pow_le_pow_right (by decide) len
  exact Nat.lt_of_lt_of_le (leNat_lt _) le

/-- Part of the header has come: there is less of it to come, unless nothing was passed. -/
def Gathered (x : Cxt) (again : Option (List UInt8)) (_ : St) (d : Cxt) : Prop :=
  again = none → d.isFirst = x.isFirst ∧ d.fwUpgradeState = .receiveData ∧
    (headerMissing d < headerMissing x ∨ headerMissing d = headerMissing x ∧ x.bufLen = 0)

theorem receiveConfigFile_gives (buf : Mem) (note : Nat → Event)
    (config : ∀ b, c.configBuf = some b → hdrPart1Len ≤ b.length) :
    Triple (Has (OnCourse s.imageHdr c)) (receiveConfigFile buf note) (Gives (Gathered c)) := by
  refine course_getCxt fun _ d alike => ?_
  have same : d.configBuf = c.configBuf := alike.field Cxt.configBuf fun _ => rfl
  have bufLen : d.bufLen = c.bufLen := alike.field Cxt.bufLen fun _ => rfl
  have count : d.imageWrtCount = c.imageWrtCount := alike.field Cxt.imageWrtCount fun _ => rfl
  rw [same, bufLen, count]
  cases hb : c.configBuf with
  | none =>
    refine gives_ite (fun _ => gives_fail) fun enough => gives_bind gives_emit fun _ => ?_
    refine gives_ite (fun _ => gives_fail) fun _ => gives_ite (fun _ => gives_fail) fun _ => ?_
    refine gives_bind (course_updateCxt (fun _ => rfl) fun _ same => same) fun _ => ?_
    refine gives_ite (fun _ => gives_fail) fun _ => gives_bind (course_steady (malloc_steady _))
      fun _ => gives_ite (fun _ => gives_fail) fun _ => ?_
    refine gives_bind gives_emit fun _ => ?_
    refine gives_bind (course_updateCxt (fun _ => rfl) fun _ same => same) fun _ => ?_
    refine gives_ite (fun short => ?_) fun _ => gives_pure fun _ _ _ never => nomatch never
    refine gives_bind (course_updateCxt (fun _ => rfl) fun _ same => same) fun _ =>
      gives_bind (setState_gives _) fun _ => gives_pure fun t d alike _ => ?_
    refine ⟨alike.field Cxt.isFirst fun _ => rfl, alike.state, .inl ?_⟩
    have after := alike.field headerMissing fun _ => rfl
    have before : headerMissing c = 2 ^ 32 := by
      unfold headerMissing
      rw [hb]
    rw [after, before]
    exact Nat.lt_of_le_of_lt (Nat.sub_le ..) (hdrLength_lt _)
  | some b =>
    refine gives_bind gives_emit fun _ =>
      gives_bind (course_updateCxt (fun _ => rfl) fun _ same => same) fun _ =>
        gives_ite (fun short => ?_) fun _ => gives_pure fun _ _ _ never => nomatch never
    refine gives_bind (setState_gives _) fun _ => gives_pure fun t d alike _ => ?_
    refine ⟨alike.field Cxt.isFirst fun _ => rfl, alike.state, ?_⟩
    have after : headerMissing d = hdrLength (b ++ load buf 0 (min c.bufLen (hdrLength b -
        c.imageWrtCount))) - (c.imageWrtCount + min c.bufLen (hdrLength b - c.imageWrtCount)) :=
      alike.field headerMissing fun _ => rfl
    have before : headerMissing c = hdrLength b - c.imageWrtCount := by
      unfold headerMissing
      rw [hb]
    rw [after, before, hdrLength_append (config b hb)]
    omega

/-- Whatever comes before. -/
theorem gives_after {α β : Type} {P : St → List Event → Prop} {m : M α} {f : α → M β}
    {Q : β → St → Cxt → Prop} (rest : ∀ a, Triple (fun _ _ => True) (f a) (Gives Q)) :
    Triple P (m >>= f) (Gives Q) := by
  refine .bind (M := fun _ _ _ => True) (Triple.of fun s l _ => ?_) rest
  cases (m s).res with
  | ok a => trivial
  | error err => exact fun _ failed => nomatch failed

/-- Code that asks for the context goes on only in a session. -/
theorem gives_some {β : Type} {P : St → List Event → Prop} {f : Cxt → M β}
    {Q : β → St → Cxt → Prop} (rest : ∀ c, Triple (Has fun _ _ => True) (f c) (Gives Q)) :
    Triple P (getCxt >>= f) (Gives Q) := by
  apply Triple.of
  intro s l _
  cases hc : s.cxt with
  | none =>
    rw [Act.bind_run, getCxt_none hc]
    exact fun _ failed => nomatch failed
  | some c =>
    rw [Act.bind_ok (getCxt_run hc)]
    exact (rest c s l (.of hc trivial l)).2

theorem acceptConfigFile_gives (b : List UInt8) : Triple (fun _ _ => True) (acceptConfigFile e b)
    (Gives fun _ _ d => d.isFirst = false) := by
  have last (raw hdrs : List ImageHdr) (flags : Nat → Bool) {f : Cxt → Cxt}
      (full : ∀ c, (f c).isFirst = false) : Triple (Has fun _ _ => True) (do
        updateCxt f
        Act.emit (.images raw hdrs flags)) (Gives fun _ _ d => d.isFirst = false) := by
    refine gives_bind (gives_updateCxt (T := fun _ d => d.isFirst = false) fun _ c _ => full c)
      fun _ => ?_
    apply Triple.of
    rintro s l ⟨⟨c, hc, first⟩, -⟩ _ _
    exact .of hc first _
  refine gives_after fun _ => gives_after fun _ => .ite (fun _ => gives_fail) fun _ => ?_
  refine gives_after fun _ => gives_after fun _ => gives_after fun _ => .ite (fun _ => ?_) fun _ => ?_
  · exact gives_after fun _ => gives_fail
  · refine gives_after fun _ => ?_
    split
    · exact gives_fail
    · refine gives_after fun _ => gives_after fun _ => gives_some fun c => .ite (fun _ => ?_)
        fun _ => gives_after fun _ => .ite (fun _ => gives_fail) fun _ => ?_
      · exact last _ _ _ fun _ => rfl
      · exact gives_after fun _ => gives_after fun _ => gives_after fun _ =>
          gives_some fun c => last _ _ _ fun _ => rfl

theorem processConfigFile_gives (buf : Mem) (note : Nat → Event)
    (config : ∀ b, c.configBuf = some b → hdrPart1Len ≤ b.length) :
    Triple (Has (OnCourse s.imageHdr c)) (processConfigFile e buf note)
      (Gives fun _ t d => d.isFirst = false ∨ Gathered c none t d) := by
  refine gives_cleanUp (gives_bind (receiveConfigFile_gives buf note config) fun again => ?_) _
  cases again with
  | none => exact gives_pure fun _ _ part => .inr part
  | some b =>
    exact gives_imp ((acceptConfigFile_gives b).pre fun _ _ _ => trivial) fun _ _ _ full => .inl full

theorem processConfigFile_lowers {buf : Mem} {note : Nat → Event} (hc : s.cxt = some c)
    (ctl : Ctl s c) (state : c.fwUpgradeState = .processConfigFile)
    (ok : (processConfigFile e buf note s).res = .ok ()) :
    Lower p s c (processConfigFile e buf note s).state := by
  have first : c.isFirst = true := ctl.first (by rw [state]; rfl)
  have before : headerLeft c = headerMissing c + 1 := if_pos first
  obtain ⟨d, hd, full | part⟩ := Gives.elim (processConfigFile_gives buf note fun b hb =>
    (ctl.config b hb).len) hc (OnCourse.refl s c) ok
  · refine ⟨d, hd, rank_lt_header ?_⟩
    rw [headerLeft_full full, before]
    exact Nat.succ_pos _
  · obtain ⟨same, next, less⟩ := part rfl
    have after : headerLeft d = headerMissing d + 1 := if_pos (same.trans first)
    obtain less | ⟨equal, empty⟩ := less
    · exact ⟨d, hd, rank_lt_header (by rw [before, after]; exact Nat.succ_lt_succ less)⟩
    · refine ⟨d, hd, rank_lt_states (by rw [before, after, equal]) ?_ ?_ ?_⟩
      · exact (if_pos (same.trans first)).trans (if_pos first).symm
      · rw [dataLeft_first first, dataLeft_first (same.trans first)]
      · unfold statesLeft
        rw [next, state]
        dsimp only
        rw [if_pos empty]
        exact Nat.lt_succ_self 2

/-! ## The images -/

/-- Images or data of the current one have been taken. -/
structure Further (p : Packet) (hdrs : Option (List ImageHdr)) (c d : Cxt) : Prop where
  first : d.isFirst = c.isFirst
  total : d.totalImages = c.totalImages
  moved : c.imageIndex < d.imageIndex ∨
    d.imageIndex = c.imageIndex ∧ bytesLeft p hdrs d < bytesLeft p hdrs c

theorem Advances.further {hdrs : Option (List ImageHdr)} {again : Bool}
    (h : Advances p hdrs c again d) : Further p hdrs c d where
  first := h.first
  total := h.total
  moved := by
    obtain ⟨index, -⟩ | ⟨index, less, -⟩ := h.moved
    · exact .inl (index ▸ Nat.lt_succ_self _)
    · exact .inr ⟨index, less⟩

theorem Further.trans {hdrs : Option (List ImageHdr)} {b : Cxt} (h : Further p hdrs b c)
    (h' : Further p hdrs c d) : Further p hdrs b d where
  first := h'.first.trans h.first
  total := h'.total.trans h.total
  moved := by
    obtain next | ⟨same, less⟩ := h.moved
    · obtain next' | ⟨same', -⟩ := h'.moved
      · exact .inl (next.trans next')
      · exact .inl (same' ▸ next)
    · obtain next' | ⟨same', less'⟩ := h'.moved
      · exact .inl (same ▸ next')
      · exact .inr ⟨same'.trans same, less'.trans less⟩

theorem OnCourse.further {hdrs : Option (List ImageHdr)} {b : Cxt} (h : Further p hdrs b c)
    (alike : OnCourse hdrs c t d) : Further p hdrs b d where
  first := (alike.field Cxt.isFirst fun _ => rfl).trans h.first
  total := (alike.field Cxt.totalImages fun _ => rfl).trans h.total
  moved := by
    have index : d.imageIndex = c.imageIndex := alike.field Cxt.imageIndex fun _ => rfl
    have bytes : bytesLeft p hdrs d = bytesLeft p hdrs c :=
      alike.field (bytesLeft p hdrs) fun _ => rfl
    rw [index, bytes]
    exact h.moved

/-- The loop over the data takes something unless there is none. -/
theorem processReceiveImage_takes (fuel : Nat) (hc : s.cxt = some c)
    (ok : (processReceiveImage e p fuel s).res = .ok ()) :
    ∃ d, (processReceiveImage e p fuel s).state.cxt = some d ∧
      (processReceiveImage e p fuel s).state.imageHdr = s.imageHdr ∧
      (OnCourse s.imageHdr c (processReceiveImage e p fuel s).state d ∧ (0 < fuel → c.drained) ∨
        Further p s.imageHdr c d) := by
  induction fuel generalizing s c with
  | zero => exact ⟨c, hc, rfl, .inl ⟨.refl s c, fun never => absurd never (Nat.lt_irrefl 0)⟩⟩
  | succ fuel ih =>
    rw [processReceiveImage_pass, Act.bind_run] at ok ⊢
    rcases run : imagePass e p s with ⟨_ | again, t, l⟩
    · rw [run] at ok
      cases ok
    · have pass : (imagePass e p s).res = .ok again := congrArg Out.res run
      obtain ⟨d, hd, hdrs, taken⟩ := Gives.elim (imagePass_gives e p) hc (OnCourse.refl s c) pass
      rw [run] at hd hdrs taken
      rw [run] at ok
      rw [Act.andThen_ok] at ok ⊢
      cases again with
      | false =>
        refine ⟨d, hd, hdrs, ?_⟩
        obtain ⟨-, empty, alike⟩ | advances := taken
        · exact .inl ⟨alike, fun _ => empty⟩
        · exact .inr advances.further
      | true =>
        obtain ⟨never, -⟩ | advances := taken
        · cases never
        · obtain ⟨b, hb, same, rest⟩ := ih hd ok
          rw [hdrs] at same rest
          refine ⟨b, hb, same, .inr ?_⟩
          obtain ⟨alike, -⟩ | further := rest
          · exact alike.further advances.further
          · exact advances.further.trans further

theorem Further.lowers (further : Further p s.imageHdr c d) (hdrs : t.imageHdr = s.imageHdr)
    (full : c.isFirst = false) (open_ : c.fwUpgradeState.late = false)
    (inside : c.imageIndex < c.totalImages) : rank p t d < rank p s c := by
  have full' := further.first.trans full
  obtain next | ⟨same, less⟩ := further.moved
  · exact rank_lt_index full full' further.total inside next
  · apply rank_lt_data ((headerLeft_full full').trans (headerLeft_full full).symm)
    · rw [imagesLeft_full full, imagesLeft_full full', further.total, same]
    · rw [dataLeft_inside full open_ inside]
      cases late : d.fwUpgradeState.late with
      | true =>
        rw [dataLeft_late late]
        exact Nat.succ_pos _
      | false =>
        rw [dataLeft_inside full' late (by rw [same, further.total]; exact inside), hdrs]
        exact Nat.succ_lt_succ less

/-- `PROCESS_IMAGE` without the loop over the data. -/
def afterImages (buffer : Buffer) : M (Option Buffer) := do
  let c ← getCxt
  Act.when (c.fwUpgradeState = .processImage) (setState .receiveData)
  pure (some buffer)

theorem afterImages_run (buffer : Buffer) (hc : s.cxt = some c) : afterImages buffer s =
    ⟨.ok (some buffer), if c.fwUpgradeState = .processImage then
      s.withCxt { c with fwUpgradeState := .receiveData } else s, []⟩ := by
  unfold afterImages setState
  rw [Act.bind_ok (getCxt_run hc)]
  split
  · rename_i more
    rw [Act.when_pos more, Act.bind_ok (updateCxt_run hc _)]
    rfl
  · rename_i done
    rw [Act.when_neg done]
    rfl

theorem processImage_lowers {fuel : Nat} {buffer : Buffer} {again : Option Buffer}
    (hc : s.cxt = some c) (ctl : Ctl s c) (state : c.fwUpgradeState = .processImage)
    (pos : 0 < fuel) (ok : ((do
      processReceiveImage e p fuel
      afterImages buffer) s).res = .ok again) :
    Lower p s c ((do
      processReceiveImage e p fuel
      afterImages buffer) s).state := by
  have full := (ctl.image state).1
  have late : c.fwUpgradeState.late = false := by rw [state]; rfl
  have inside := (ctl.current full (by rw [state]; rfl)).1
  obtain ⟨u, run, rest, state'⟩ := Act.andThen_res_ok ok
  obtain ⟨d, hd, hdrs, taken⟩ := processReceiveImage_takes fuel hc run
  generalize (processReceiveImage e p fuel s).state = t at hd hdrs taken state'
  rw [afterImages_run buffer hd] at state'
  unfold Lower
  rw [Act.bind_run, state']
  obtain ⟨alike, empty⟩ | further := taken
  · rw [if_pos (alike.state.trans state)]
    refine ⟨_, rfl, OnCourse.lowers (y := .receiveData) ⟨alike.imageHdr, alike.course, rfl⟩
      (.inr (.inr ⟨full, late, rfl, inside⟩)) ?_⟩
    unfold statesLeft
    rw [state]
    dsimp only
    rw [if_pos (empty pos)]
    exact Nat.lt_succ_self 2
  · split
    · refine ⟨_, rfl, Further.lowers ⟨further.first, further.total, further.moved⟩ hdrs full late
        inside⟩
    · exact ⟨d, hd, further.lowers hdrs full late inside⟩

/-! ## The next image of a partial upgrade -/

theorem Passing.late (h : Passing s c) : c.fwUpgradeState.late = false := by
  rw [h.state]
  rfl

/-- An empty FS1 image uses up an entry of the trial FWD. -/
theorem emptyFs1_fills {img : ImageHdr} (h : Passing s c) (fs1 : img.imageId = fs1ImgId)
    {m : M Unit} (eq : m = (do
      createFs1 e img
      releasePartition
      updateCxt fun c => { c with
        imageIndex := c.imageIndex + 1
        fwUpgradeState := .prepareConnect })) (ok : (m s).res = .ok ()) :
    (m s).state.cxt = some { c with imageIndex := c.imageIndex + 1 } ∧
      freeEntries (m s).state.flash c.trialFwdIdx < freeEntries s.flash c.trialFwdIdx := by
  subst eq
  obtain ⟨u, created, -, state⟩ := Act.andThen_res_ok ok
  rw [Act.bind_run, state]
  clear ok state
  obtain ⟨err, t, run, -⟩ | ⟨fs2, t, hs, quiet, -, run⟩ := createFs1_cases e img h.cxt h.ctl
  · rw [run] at created
    cases created
  · have same : c.loosed = c := by
      unfold Cxt.loosed
      rw [← h.loose]
    rw [same] at run
    rw [run] at created ⊢
    split at created
    · cases created
    · rename_i fits
      rw [if_neg fits]
      have hc : (t.hold hs (some c)).cxt = some c := rfl
      have flash : (t.hold hs (some c)).flash = s.flash := quiet.flash
      generalize t.hold hs (some c) = u at created hc flash
      obtain ⟨err, v, run, -⟩ | ⟨slot, out, v, -, -, run⟩ | ⟨slot, k, v, entered, -, run⟩ :=
        newPartition_cases e c.imageIndex img.imageId img.version fs2.imgStart fs2.imgSize hc
      · rw [Act.orFail_error run] at created
        cases created
      · rw [Act.orFail_error run] at created
        cases created
      · rw [Act.orFail_ok run, Act.bind_ok (releasePartition_run (withCxt_cxt _ _)),
          updateCxt_run rfl]
        refine ⟨?_, ?_⟩
        · change some _ = some _
          rw [← h.loose, ← h.state]
        · rw [← flash]
          exact entered.fills fs1

/-- What `PREPARE_CONNECT` comes to from the image it has found. -/
inductive Connects (s : St) (c : Cxt) (t : St) : Prop
  | empty (cxt : t.cxt = some { c with imageIndex := c.imageIndex + 1 })
      (fills : freeEntries t.flash c.trialFwdIdx < freeEntries s.flash c.trialFwdIdx)
  | done (outside : c.totalImages ≤ c.imageIndex)
      (cxt : t.cxt = some { c with fwUpgradeState := .duplicateImages })
  | next (inside : c.imageIndex < c.totalImages) (imageHdr : t.imageHdr = s.imageHdr)
      (cxt : t.cxt = some { c with fwUpgradeState := .connect })

theorem connectNext_connects (h : Passing s c) (ok : (connectNext e p s).res = .ok ()) :
    Connects s c (connectNext e p s).state := by
  unfold connectNext at ok ⊢
  rw [Act.bind_ok (getCxt_run h.cxt)] at ok ⊢
  obtain ⟨img, -, rest, state⟩ := Act.andThen_res_ok ok
  have same : (readImageHdr p c.imageIndex s).state = s := rfl
  rw [same] at rest state
  rw [Act.bind_run, state]
  clear ok state
  rw [Act.ite_run] at rest ⊢
  split at rest
  · rename_i fs1
    rw [if_pos fs1]
    obtain ⟨cxt, fills⟩ := emptyFs1_fills h fs1.1 rfl rest
    exact .empty cxt fills
  · rename_i other
    rw [if_neg other, Act.ite_run]
    unfold setState
    rw [updateCxt_run h.cxt, updateCxt_run h.cxt]
    split
    · rename_i outside
      exact .done outside rfl
    · rename_i inside
      exact .next (Nat.not_le.mp inside) rfl rfl

theorem Connects.lowers {index : Nat} (h : Passing s c) (le : c.imageIndex ≤ index)
    (connects : Connects (s.withCxt { c with imageIndex := index }) { c with imageIndex := index } t) :
    Lower p s c t := by
  cases connects with
  | empty cxt fills =>
    refine ⟨_, cxt, ?_⟩
    by_cases inside : c.imageIndex < c.totalImages
    · exact rank_lt_index h.first h.first rfl inside (Nat.lt_succ_of_le le)
    · have outside := Nat.not_lt.mp inside
      have next : c.totalImages ≤ index + 1 := outside.trans (Nat.le_succ_of_le le)
      refine rank_lt_outside (d := { c with imageIndex := index + 1 }) h.first h.first rfl outside
        next ?_
      rw [dataLeft_outside h.first h.late outside,
        dataLeft_outside (c := { c with imageIndex := index + 1 }) h.first h.late next]
      exact Nat.succ_lt_succ fills
  | done outside cxt =>
    refine ⟨_, cxt, ?_⟩
    by_cases inside : c.imageIndex < c.totalImages
    · exact rank_lt_index h.first h.first rfl inside (Nat.lt_of_lt_of_le inside outside)
    · refine rank_lt_outside (d := { c with imageIndex := index, fwUpgradeState := .duplicateImages })
        h.first h.first rfl (Nat.not_lt.mp inside) outside ?_
      rw [dataLeft_outside h.first h.late (Nat.not_lt.mp inside), dataLeft_late rfl]
      exact Nat.succ_pos _
  | next inside imageHdr cxt =>
    refine ⟨_, cxt, ?_⟩
    obtain rfl | skipped := Nat.eq_or_lt_of_le le
    · refine OnCourse.lowers (y := .connect) ⟨imageHdr, rfl, rfl⟩
        (.inr (.inr ⟨h.first, h.late, rfl, inside⟩)) ?_
      unfold statesLeft
      rw [h.state]
      exact Nat.lt_succ_self 3
    · exact rank_lt_index h.first h.first rfl (skipped.trans inside) skipped

theorem prepareConnect_lowers (hc : s.cxt = some c) (ctl : Ctl s c)
    (state : c.fwUpgradeState = .prepareConnect) (ok : (prepareConnect e p s).res = .ok ()) :
    Lower p s c (prepareConnect e p s).state := by
  unfold prepareConnect at ok ⊢
  rw [Act.bind_ok (getCxt_run hc)] at ok ⊢
  rw [Act.ite_run] at ok ⊢
  split at ok
  · rename_i first
    rw [if_pos first]
    refine onward_lowers hc (setState_gives _) (.inl first) ?_ rfl
    unfold statesLeft
    rw [state]
    exact Nat.lt_succ_self 3
  · rename_i full
    have h : Passing s c := ⟨hc, ctl, state, by simpa using full⟩
    obtain ⟨le, -, -⟩ := skipImages_spec c.downloadFlag c.totalImages c.totalImages
      c.imageIndex (Nat.le_add_left ..)
    rw [Act.bind_ok (updateCxt_run hc _)] at ok
    rw [if_neg full, Act.bind_ok (updateCxt_run hc _)]
    generalize skipImages c.downloadFlag c.totalImages c.totalImages c.imageIndex = index
      at le ok
    have passing : Passing (s.withCxt { c with imageIndex := index }) { c with imageIndex := index } :=
      h.moved index ctl.init rfl rfl
    exact (connectNext_connects passing ok).lowers h le

/-! ## Every pass -/

theorem then_pure {α : Type} {m : M Unit} {a b : α}
    (lower : (m s).res = .ok () → Lower p s c (m s).state) (ok : ((do
      m
      pure a) s).res = .ok b) : Lower p s c ((do
      m
      pure a) s).state := by
  obtain ⟨u, run, -, state⟩ := Act.andThen_res_ok ok
  rw [Act.bind_run, state]
  exact lower run

/-- A packet with data has been taken. -/
theorem statesLeft_reading {n : Nat} (some : n ≠ 0) : statesLeft { c with
    bufLen := n
    bufOffset := 0
    fwUpgradeState := if c.isFirst then .processConfigFile else .processImage } = 1 := by
  by_cases first : c.isFirst = true
  · rw [if_pos first]
    exact if_neg some
  · rw [if_neg first]
    exact if_neg fun drained => some (Nat.eq_zero_of_le_zero drained.2)

/-- Each pass the loop goes on after lowers the rank. -/
theorem sessionStep_lowers {buffer next : Buffer} (hc : s.cxt = some c) (ctl : Ctl s c)
    (ok : (sessionStep e p buffer s).res = .ok (some next)) :
    Lower p s c (sessionStep e p buffer s).state := by
  have first := ctl.first
  have below {x y : FwState} (state : c.fwUpgradeState = x) (lt : statesLeft { c with
      fwUpgradeState := y } < statesLeft { c with fwUpgradeState := x }) :
      statesLeft { c with fwUpgradeState := y } < statesLeft c := by
    rw [← state] at lt
    exact lt
  unfold sessionStep at ok ⊢
  rw [Act.bind_ok (getCxt_run hc)] at ok ⊢
  cases state : c.fwUpgradeState with
  | notStart =>
    rw [state] at ok first
    have steps : Triple (Has (OnCourse s.imageHdr c)) (do
        setState .getTrialInfo
        pure (some buffer)) (Gives fun _ => OnCourse s.imageHdr
          { c with fwUpgradeState := .getTrialInfo }) :=
      gives_bind (setState_gives _) fun _ => gives_pure fun _ _ alike => alike
    exact onward_lowers hc steps (.inl (first rfl)) (below state (Nat.lt_succ_self 9)) ok
  | getTrialInfo =>
    rw [state] at ok first
    have steps : Triple (Has (OnCourse s.imageHdr c)) (do
        getTrialInfo e
        pure (some buffer)) (Gives fun _ => OnCourse s.imageHdr
          { c with fwUpgradeState := .eraseFwd }) :=
      gives_bind getTrialInfo_gives fun _ => gives_pure fun _ _ alike => alike
    exact onward_lowers hc steps (.inl (first rfl)) (below state (Nat.lt_succ_self 8)) ok
  | eraseFwd =>
    rw [state] at ok first
    have steps : Triple (Has (OnCourse s.imageHdr c)) (do
        (eraseFwd e c.trialFwdIdx).orFail .flashEraseFail
        setState .eraseSecondFs
        pure (some buffer)) (Gives fun _ => OnCourse s.imageHdr
          { c with fwUpgradeState := .eraseSecondFs }) :=
      gives_bind (course_steady (.orFail (eraseFwd_steady ..) _)) fun _ =>
        gives_bind (setState_gives _) fun _ => gives_pure fun _ _ alike => alike
    exact onward_lowers hc steps (.inl (first rfl)) (below state (Nat.lt_succ_self 7)) ok
  | eraseSecondFs =>
    rw [state] at ok first
    have steps : Triple (Has (OnCourse s.imageHdr c)) (do
        eraseSecondFs e
        pure (some buffer)) (Gives fun _ => OnCourse s.imageHdr
          { c with fwUpgradeState := .prepareFs }) :=
      gives_bind eraseSecondFs_gives fun _ => gives_pure fun _ _ alike => alike
    exact onward_lowers hc steps (.inl (first rfl)) (below state (Nat.lt_succ_self 6)) ok
  | prepareFs =>
    rw [state] at ok first
    have steps : Triple (Has (OnCourse s.imageHdr c)) (do
        prepareFs e
        pure (some buffer)) (Gives fun _ => OnCourse s.imageHdr
          { c with fwUpgradeState := .prepareConnect }) :=
      gives_bind prepareFs_gives fun _ => gives_pure fun _ _ alike => alike
    exact onward_lowers hc steps (.inl (first rfl)) (below state (by decide : 4 < 6)) ok
  | prepareConnect =>
    rw [state] at ok
    exact then_pure (prepareConnect_lowers hc ctl state) ok
  | connect =>
    refine then_pure (fun _ => ?_) (state ▸ ok)
    unfold setState
    rw [updateCxt_run hc]
    exact steer_lowers (by rw [state]; rfl) (below state (Nat.lt_succ_self 2))
  | receiveData =>
    rw [state] at ok
    dsimp only at ok ⊢
    rw [Act.ite_run] at ok ⊢
    split at ok
    · cases ok
    · rename_i more
      rw [if_neg more, Act.bind_ok (updateCxt_run hc _)]
      refine steer_lowers ?_ ?_
      · rw [state]
        split <;> rfl
      · rw [statesLeft_reading more, statesLeft, state]
        exact Nat.lt_succ_self 1
  | processConfigFile =>
    rw [state] at ok
    exact then_pure (processConfigFile_lowers hc ctl state) ok
  | processImage =>
    rw [state] at ok
    exact processImage_lowers hc ctl state (Nat.succ_pos _) ok
  | disconnectServer =>
    refine then_pure (fun _ => ?_) (state ▸ ok)
    unfold setState
    rw [updateCxt_run hc]
    exact steer_lowers (by rw [state]; rfl) (below state (Nat.lt_succ_self 4))
  | duplicateImages =>
    rw [state] at ok
    have steps : Triple (Has (OnCourse s.imageHdr c)) (do
        processDuplicateImages e
        setState .duplicateFs
        pure (some buffer)) (Gives fun _ => OnCourse s.imageHdr
          { c with fwUpgradeState := .duplicateFs }) :=
      gives_bind (course_keeping (processDuplicateImages_keeping e)) fun _ =>
        gives_bind (setState_gives _) fun _ => gives_pure fun _ _ alike => alike
    exact onward_lowers hc steps (.inr ⟨by rw [state]; rfl, rfl⟩)
      (below state (Nat.lt_succ_self 1)) ok
  | duplicateFs =>
    rw [state] at ok
    have steps : Triple (Has (OnCourse s.imageHdr c)) (do
        Act.when (sessionFlags / 2 % 2 = 1) (processDuplicateFs e)
        setState .finish
        pure (some buffer)) (Gives fun _ => OnCourse s.imageHdr
          { c with fwUpgradeState := .finish }) :=
      gives_bind (course_steady (.when (processDuplicateFs_steady e))) fun _ =>
        gives_bind (setState_gives _) fun _ => gives_pure fun _ _ alike => alike
    exact onward_lowers hc steps (.inr ⟨by rw [state]; rfl, rfl⟩)
      (below state (Nat.lt_succ_self 0)) ok
  | finish =>
    rw [state] at ok
    obtain ⟨_, _, never, -⟩ := Act.andThen_res_ok ok
    cases never

end Pass

/-! ## The loop -/

/-- What a pass that the session loop goes on after leaves. -/
def sessionNext (e : Env) (p : Packet) (x : St × Buffer) : Option (St × Buffer) :=
  match x.1.cxt with
  | none => none
  | some c =>
    if c.bufOffset ≤ p.len ∨ c.fwUpgradeState.late then
      match (sessionStep e p x.2 x.1).res with
      | .ok (some buffer) => some ((sessionStep e p x.2 x.1).state, buffer)
      | _ => none
    else none

def sessionRank (p : Packet) (s : St) : Rank :=
  match s.cxt with
  | none => .of 0 0 0 0
  | some c => rank p s c

section Loop
variable {e : Env} {p : Packet} {s t : St} {b b' : Buffer}

theorem sessionNext_some (next : sessionNext e p (s, b) = some (t, b')) : ∃ c, s.cxt = some c ∧
    (c.bufOffset ≤ p.len ∨ c.fwUpgradeState.late = true) ∧
    (sessionStep e p b s).res = .ok (some b') ∧ (sessionStep e p b s).state = t := by
  unfold sessionNext at next
  split at next
  · cases next
  · rename_i c hc
    split at next
    · rename_i inside
      split at next
      · rename_i buffer again
        cases next
        exact ⟨c, hc, inside, again, rfl⟩
      · cases next
    · cases next

theorem sessionNext_good (good : Good s) (next : sessionNext e p (s, b) = some (t, b')) :
    Good t := by
  obtain ⟨c, hc, -, -, rfl⟩ := sessionNext_some next
  exact (@sessionStep_moves e true p b s [] ⟨good, .inl rfl⟩).2.1

theorem sessionNext_lowers (good : Good s) (next : sessionNext e p (s, b) = some (t, b')) :
    sessionRank p t < sessionRank p s := by
  obtain ⟨c, hc, -, again, rfl⟩ := sessionNext_some next
  obtain ⟨d, hd, lt⟩ := sessionStep_lowers hc (good c hc) again
  unfold sessionRank
  rw [hc, hd]
  exact lt

theorem session_loop_ends (good : Good s) (b : Buffer) : Loop.Ends (sessionNext e p) (s, b) := by
  apply Loop.Ends.of_measure (I := fun x => Good x.1) (fun x => sessionRank p x.1) _ good
  rintro ⟨s, b⟩ ⟨t, b'⟩ good next
  exact ⟨sessionNext_good good next, sessionNext_lowers good next⟩

/-- A loop that is left needs one unit of fuel. -/
theorem sessionLoop_last (left : sessionNext e p (s, b) = none) (n m : Nat) :
    sessionLoop e p (n + 1) b s = sessionLoop e p (m + 1) b s ∧
      (sessionLoop e p (n + 1) b s).res ≠ .ok false := by
  unfold sessionNext at left
  unfold sessionLoop
  cases hc : s.cxt with
  | none =>
    rw [Act.bind_run, Act.bind_run, getCxt_none hc]
    exact ⟨rfl, by rintro ⟨⟩⟩
  | some c =>
    rw [Act.bind_ok (getCxt_run hc), Act.bind_ok (getCxt_run hc), Act.ite_run, Act.ite_run]
    rw [hc] at left
    dsimp only at left
    split
    · rename_i inside
      rw [if_pos inside] at left
      rw [Act.bind_run, Act.bind_run]
      rcases run : sessionStep e p b s with ⟨_ | _ | buffer, t, l⟩
      · exact ⟨rfl, by rintro ⟨⟩⟩
      · exact ⟨rfl, by rintro ⟨⟩⟩
      · rw [run] at left
        cases left
    · exact ⟨rfl, by rintro ⟨⟩⟩

/-- Otherwise it goes on with one unit less. -/
theorem sessionLoop_pass (next : sessionNext e p (s, b) = some (t, b')) (n : Nat) :
    sessionLoop e p (n + 1) b s = ⟨(sessionLoop e p n b' t).res, (sessionLoop e p n b' t).state,
      (sessionStep e p b s).trace ++ (sessionLoop e p n b' t).trace⟩ := by
  obtain ⟨c, hc, inside, again, rfl⟩ := sessionNext_some next
  rw [sessionLoop, Act.bind_ok (getCxt_run hc), Act.ite_run, if_pos inside, Act.bind_run]
  rcases run : sessionStep e p b s with ⟨r, t, l⟩
  rw [run] at again
  cases again
  rfl

/-- With enough fuel the loop is left, and more of it changes nothing. -/
theorem sessionLoop_fuel (ends : Loop.Ends (sessionNext e p) (s, b)) : ∃ n, ∀ fuel, n ≤ fuel →
    sessionLoop e p fuel b s = sessionLoop e p n b s ∧
      (sessionLoop e p fuel b s).res ≠ .ok false := by
  generalize hx : (s, b) = x at ends
  induction ends generalizing s b with
  | last left =>
    subst hx
    refine ⟨1, fun fuel le => ?_⟩
    obtain ⟨fuel, rfl⟩ : ∃ k, fuel = k + 1 := ⟨fuel - 1, by omega⟩
    exact sessionLoop_last left fuel 0
  | @pass x y goes _ ih =>
    subst hx
    obtain ⟨t, b'⟩ := y
    obtain ⟨n, enough⟩ := ih rfl
    refine ⟨n + 1, fun fuel le => ?_⟩
    obtain ⟨fuel, rfl⟩ : ∃ k, fuel = k + 1 := ⟨fuel - 1, by omega⟩
    obtain ⟨same, ended⟩ := enough fuel (Nat.le_of_succ_le_succ le)
    rw [sessionLoop_pass goes, sessionLoop_pass goes, same]
    exact ⟨rfl, same ▸ ended⟩

end Loop

/-! ## Calls -/

/-- What a call does before its loop. -/
def enterSession (e : Env) (p : Packet) : M Unit := do
  Act.when (p.offset = 0) ((sessionInit e).orFail .sessionNotStart)
  let _ ← getCxt
  updateCxt fun c => { c with bufOffset := 0 }

/-- The loop of a call comes to `x`. -/
def LoopHead (e : Env) (p : Packet) (s : St) (x : St × Buffer) : Prop :=
  (enterSession e p s).res = .ok () ∧
    ReflTransGen (fun x y => sessionNext e p x = some y) ((enterSession e p s).state, none) x

section Calls
variable {e : Env} {p : Packet} {s : St}

theorem sessionProcess_enter (e : Env) (p : Packet) (fuel : Nat) :
    sessionProcess e fuel p = enterSession e p >>= fun _ => sessionLoop e p fuel none := by
  unfold enterSession sessionProcess
  simp only [Act.bind_assoc]

theorem enterSession_good (good : Good s) : Good (enterSession e p s).state := by
  have call := Good.call (e := e) good 0 p
  rw [sessionProcess_enter, Act.bind_run] at call
  rcases run : enterSession e p s with ⟨_ | _, t, l⟩
  · rwa [run] at call
  · rwa [run] at call

theorem LoopHead.good (good : Good s) {x : St × Buffer} (head : LoopHead e p s x) : Good x.1 := by
  obtain ⟨-, passes⟩ := head
  induction passes with
  | refl => exact enterSession_good good
  | @tail x y _ next ih => exact @sessionNext_good e p x.1 y.1 x.2 y.2 ih next

/-- Whatever the packet and whatever fails, both loops of a call end: each pass lowers a rank. -/
theorem session_loops_end {s₀ : St} {l : List Event} (calls : Calls e (fun _ _ => True) s₀ s l)
    (p : Packet) :
    (∃ n, ∀ fuel, n ≤ fuel → sessionProcess e fuel p s = sessionProcess e n p s ∧
      (sessionProcess e fuel p s).res ≠ .ok false) ∧
    (∀ x y, LoopHead e p s x → sessionNext e p x = some y →
      sessionRank p y.1 < sessionRank p x.1) ∧
    (∀ t u c, imageNext e p t = some u → t.cxt = some c →
      ∃ d, u.cxt = some d ∧ passesLeft d < passesLeft c) ∧
    ∀ t c k, t.cxt = some c → processReceiveImage e p (c.bufLen + c.totalImages + 2 + k) t =
      processReceiveImage e p (c.bufLen + c.totalImages + 2) t := by
  obtain ⟨good, -⟩ := calls.since true fun _ _ _ => .inr (.inl rfl)
  refine ⟨?_, ?_, ?_, ?_⟩
  · obtain ⟨n, enough⟩ := sessionLoop_fuel (session_loop_ends (p := p) (enterSession_good good) none)
    refine ⟨n, fun fuel le => ?_⟩
    obtain ⟨same, ended⟩ := enough fuel le
    rw [sessionProcess_enter, sessionProcess_enter, Act.bind_run, Act.bind_run]
    rcases run : enterSession e p s with ⟨_ | _, t, l⟩
    · exact ⟨rfl, by rintro ⟨⟩⟩
    · rw [run] at same ended
      rw [Act.andThen_ok, Act.andThen_ok, same]
      exact ⟨rfl, same ▸ ended⟩
  · rintro ⟨t, b⟩ ⟨u, b'⟩ head next
    exact sessionNext_lowers (head.good good) next
  · exact fun t u c next hc => imagePass_descends hc next
  · intro t c k hc
    apply processReceiveImage_fuel hc
    · unfold passesLeft
      omega
    · exact Nat.le_add_right _ k

theorem fresh_session_ends : ∃ n, ∀ fuel, n ≤ fuel →
    (sessionProcess plainEnv fuel (.of 0 plainUpload) plainDevice).res ≠ .ok false := by
  obtain ⟨⟨n, ends⟩, -⟩ := session_loops_end (e := plainEnv) (.idle rfl : Calls plainEnv _ plainDevice
    plainDevice []) (.of 0 plainUpload)
  exact ⟨n, fun fuel le => (ends fuel le).2⟩

end Calls

end Qapp.Fw
