import Qapp.Fw.Receive

/-!
# Copies from the running firmware
-/

namespace Qapp.Fw
open ByteMem Traced
open Relation (ReflTransGen)

variable {e : Env} {retry : Bool}

/-! ## FS1 to FS2 -/

theorem Lookup.imgSize_lt {m : Mem} {fwdIdx id : Nat} {c : Client} (h : Lookup m fwdIdx id c) :
    c.imgSize < 2 ^ 32 := by
  obtain ⟨-, i, -, rfl⟩ := h
  unfold Entry.client
  dsimp only
  split
  · exact Nat.mod_lt _ (by decide)
  · exact word_lt m _

theorem Lookup.refCount {m : Mem} {fwdIdx id : Nat} {c : Client} (h : Lookup m fwdIdx id c) :
    c.refCount = 1 := by
  obtain ⟨-, i, -, rfl⟩ := h
  rfl

theorem Lookup.imgId {m : Mem} {fwdIdx id : Nat} {c : Client} (h : Lookup m fwdIdx id c) :
    c.imgId = id := by
  obtain ⟨-, i, found, rfl⟩ := h
  exact (entryOf_some found).2

/-- Outside of SBL a partition is whole blocks. -/
theorem Lookup.blocks {m : Mem} {fwdIdx id : Nat} {c : Client} (h : Lookup m fwdIdx id c)
    (ne : id ≠ sblImgId) : c.imgStart % blockSize = 0 ∧ c.imgSize % blockSize = 0 := by
  obtain ⟨-, i, found, rfl⟩ := h
  have id := (entryOf_some found).2
  unfold Entry.client
  dsimp only
  rw [if_pos (id ▸ ne), if_pos (id ▸ ne)]
  unfold blockSize
  omega

theorem Lookup.copy_lt {m : Mem} {fwdIdx id : Nat} {c : Client} (h : Lookup m fwdIdx id c)
    (ne : id ≠ sblImgId) : blockCount c.imgSize * blockSize < 2 ^ 32 := by
  have lt := h.imgSize_lt
  have := (h.blocks ne).2
  unfold blockCount
  unfold blockSize at this ⊢
  omega

/-- The erase and the write of one block of a copy. -/
theorem copyBlock_touches (e : Env) (image : Option Nat) {k : Nat} {s : St}
    (valid : handleValid s (some k) = true) {size offset : Nat} (lt : offset < size)
    (aligned : offset % blockSize = 0) {buf : List UInt8} (len : buf.length = blockSize) :
    ∃ r t l, ((do
        (erasePartition e image (some k) offset blockSize).orFail .flashErasePartition
        (writePartition e image (some k) offset buf 0).orFail .flashWritePartition : M Unit)) s =
          ⟨r, t, l⟩ ∧ t.handles = s.handles ∧
      Touches e (fun who op _ => who = issuer image (s.handles k) offset ∧
        CopyOp (s.handles k) size offset op ∧
        ((s.handles k).imgId ≠ sblImgId → EraseFits (s.handles k) offset blockSize)) s l t := by
  obtain ⟨r, a, la, ok, run, res, erase, handles⟩ :=
    erasePartition_run e image offset blockSize valid
  have first := erase.touches.mono (Q := fun who op _ => who = issuer image (s.handles k) offset ∧
    CopyOp (s.handles k) size offset op ∧
    ((s.handles k).imgId ≠ sblImgId → EraseFits (s.handles k) offset blockSize))
    fun who op _ ⟨hw, ho, fits⟩ => ⟨hw, ho ▸ .erase lt aligned fits, fun _ => fits⟩
  rw [Act.bind_run]
  cases r with
  | error err =>
    rw [Act.orFail_error run, Act.andThen_error]
    exact ⟨_, a, la, rfl, handles, first⟩
  | ok _ =>
    rw [Act.orFail_ok run, Act.andThen_ok]
    have erased : (s.handles k).imgId ≠ sblImgId →
        EraseFits (s.handles k) offset blockSize := by
      intro id
      cases res
      cases erase with
      | skipped sbl => exact absurd sbl id
      | done fits possible ran => exact fits
    have valid' : handleValid a (some k) = true := by
      unfold handleValid at valid ⊢
      rw [handles]
      exact valid
    obtain ⟨r, b, lb, ok, run', -, write, handles'⟩ := writePartition_run e image offset buf 0
      valid'
    rw [handles] at write
    have second := write.touches.mono (Q := fun who op _ =>
      who = issuer image (s.handles k) offset ∧ CopyOp (s.handles k) size offset op ∧
      ((s.handles k).imgId ≠ sblImgId → EraseFits (s.handles k) offset blockSize))
      fun who op _ ⟨hw, ho, fits⟩ => ⟨hw, ho ▸ .write lt aligned len fits, erased⟩
    cases r with
    | error err =>
      rw [Act.orFail_error run']
      exact ⟨_, b, la ++ lb, rfl, handles'.trans handles, first.trans second⟩
    | ok _ =>
      rw [Act.orFail_ok run']
      exact ⟨_, b, la ++ lb, rfl, handles'.trans handles, first.trans second⟩

theorem copyFs_touches (e : Env) (hdl1 hdl2 size : Nat) (n offset : Nat) (s : St)
    (valid : handleValid s (some hdl2) = true) (id : (s.handles hdl2).imgId ≠ sblImgId)
    (fits : offset + n * blockSize ≤ size) (small : size < 2 ^ 32)
    (aligned : offset % blockSize = 0) :
    ∃ r t l, copyFs e hdl1 hdl2 n offset s = ⟨r, t, l⟩ ∧ t.handles = s.handles ∧
      Touches e (fun who op _ => ∃ o, who = .part (s.handles hdl2) o ∧
        PartOp (s.handles hdl2) o op) s l t := by
  induction n generalizing offset s with
  | zero => exact ⟨.ok (), s, [], rfl, rfl, .refl s⟩
  | succ n ih =>
    unfold copyFs
    obtain ⟨ok, buf, t, run, reads, len⟩ := readPartition_cases e hdl1 offset blockSize s
    rw [Act.bind_run, run, Act.andThen_ok]
    have quiet : Touches e (fun who op _ => ∃ o, who = .part (s.handles hdl2) o ∧
        PartOp (s.handles hdl2) o op) s [] t := .quiet reads.quiet
    cases ok with
    | false => exact ⟨_, t, [], rfl, reads.handles, quiet⟩
    | true =>
      have valid' : handleValid t (some hdl2) = true := by
        unfold handleValid at valid ⊢
        rw [reads.handles]
        exact valid
      rw [Nat.add_mul, Nat.one_mul] at fits
      have lt : offset < size := by
        unfold blockSize at fits
        omega
      obtain ⟨r, u, l, block, handles, touches⟩ := copyBlock_touches e none valid' lt aligned len
      rw [reads.handles] at touches
      have touches := quiet.trans (touches.mono fun who op _ ⟨hw, copy, erased⟩ => by
        refine ⟨offset, hw, .copy ?_ copy⟩
        have := (erased id).inside
        rwa [Nat.mod_eq_of_lt (by omega)] at this)
      simp only [Bool.not_true, Bool.false_eq_true, if_false, List.nil_append]
      rw [← Act.bind_assoc, Act.bind_run, block]
      cases r with
      | error err => exact ⟨_, u, l, rfl, handles.trans reads.handles, touches⟩
      | ok _ =>
        have same : u.handles = s.handles := handles.trans reads.handles
        obtain ⟨r, v, l', run', handles', more⟩ := ih (offset + blockSize) u
          (by unfold handleValid at valid ⊢; rw [same]; exact valid) (by rw [same]; exact id)
          (by omega) (by rw [Nat.add_mod, aligned]; rfl)
        rw [same] at more handles'
        rw [Act.andThen_ok, run']
        exact ⟨r, v, l ++ l', rfl, handles', touches.trans more⟩

/-- The copy of FS1 only writes to the FS2 of the running FWD. -/
def CopiesFs (e : Env) (s : St) (l : List Event) (t : St) : Prop :=
  Touches e (fun _ _ _ => False) s l t ∨
  ∃ client, Lookup s.flash (activeFwd s.rram) fs2ImgId client ∧
    Touches e (fun who op _ => ∃ offset, who = .part client offset ∧ PartOp client offset op) s l t

theorem CopiesFs.then {s t u : St} {l l' : List Event} (h : CopiesFs e s l t)
    (more : Touches e (fun _ _ _ => False) t l' u) : CopiesFs e s (l ++ l') u := by
  rcases h with h | ⟨client, found, h⟩
  · exact .inl (h.trans more)
  · exact .inr ⟨client, found, h.trans (more.mono fun _ _ _ no => no.elim)⟩

theorem CopiesFs.moves {s t : St} {l : List Event} {c : Cxt} (h : CopiesFs e s l t)
    (hc : s.cxt = some c) (state : c.fwUpgradeState.bulk = true) (hist : List Event) :
    Moves e retry (s, hist) (t, hist ++ l) := by
  rcases h with h | ⟨client, found, h⟩
  · exact h.moves hist
  · exact .single (.bulk hc state (.inl rfl) found h)

theorem CopiesFs.kept {s t : St} {l : List Event} {c : Cxt} (h : CopiesFs e s l t)
    (hc : s.cxt = some c) (ctl : Ctl s c) : t.cxt = some c ∧ Ctl t c := by
  rcases h with h | ⟨client, found, h⟩
  · exact ⟨h.cxt.trans hc, ctl.touches hc h⟩
  · exact ⟨h.cxt.trans hc, ctl.touches hc h⟩

theorem touches_free (b : Block) (s : St) {P : Issuer → Op → Outcome → Prop} :
    Touches e P s [.note (.free b)] s := .note s _

theorem processDuplicateFs_copies (e : Env) {s : St} {c : Cxt} (hc : s.cxt = some c)
    (loose : c.partitionHdl = none) :
    ∃ r t l, processDuplicateFs e s = ⟨r, t, l⟩ ∧ CopiesFs e s l t := by
  have free (k : Nat) : ∀ {t : St}, t.cxt = s.cxt → Loose k t := by
    intro t cxt c' hc'
    rw [cxt, hc] at hc'
    cases hc'
    rw [loose]
    rintro ⟨⟩
  unfold processDuplicateFs
  obtain ⟨ok, t, run, eq, -⟩ := malloc_run .blockBuf s
  have quiet : Quiet s t := by
    rw [eq]
    exact quiet_oom s _
  have start : Touches e (fun _ _ _ => False) s
      [.note (if ok then .alloc .blockBuf else .denied .blockBuf)] t :=
    (Touches.quiet quiet).trans (.note t _)
  simp only [Act.bind_run, run, Act.andThen_ok]
  cases ok with
  | false => exact ⟨_, t, _, rfl, .inl start⟩
  | true =>
    simp only [Bool.not_true, Bool.false_eq_true, if_false]
    rw [Act.bind_run, Act.read_run, Act.andThen_ok]
    rcases findPartition_cases e (activeFwd t.rram) fs1ImgId t with ⟨err, u, run, reads⟩ |
      ⟨k₁, c₁, u, run, reads, free₁, found₁⟩
    · simp only [Act.attempt_bind_run run]
      exact ⟨_, u, _, rfl, .inl (start.trans ((Touches.quiet reads.quiet).trans (touches_free _ _)))⟩
    · have quiet₁ : Quiet t (setHandle k₁ c₁ u) :=
        reads.quiet.trans (quiet_setHandle (free k₁ (reads.cxt.trans quiet.cxt)) c₁)
      simp only [Act.attempt_bind_run run]
      generalize hv : setHandle k₁ c₁ u = v at quiet₁
      have cxt : v.cxt = s.cxt := quiet₁.cxt.trans quiet.cxt
      have open₁ : v.handles k₁ = c₁ := by rw [← hv]; exact Function.update_self ..
      have found := start.trans (.quiet quiet₁)
      rcases findPartition_cases e (activeFwd t.rram) fs2ImgId v with ⟨err, w, run', reads'⟩ |
        ⟨k₂, c₂, w, run', reads', free₂, found₂⟩
      · simp only [Act.attempt_bind_run run', Fw.free, Act.bind_run, Act.emit_run, Act.andThen_ok,
          Act.update_run, Act.fail_run]
        refine ⟨_, releaseHandle k₁ w, _, rfl, .inl ?_⟩
        have cleaned : Touches e (fun _ _ _ => False) v ([] ++ ([.note (.free .blockBuf)] ++ []))
            (releaseHandle k₁ w) := (Touches.quiet reads'.quiet).trans
          ((touches_free _ _).trans (.quiet (quiet_release (free k₁ (reads'.cxt.trans cxt)))))
        simpa using found.trans cleaned
      · have quiet₂ : Quiet v (setHandle k₂ c₂ w) :=
          reads'.quiet.trans (quiet_setHandle (free k₂ (reads'.cxt.trans cxt)) c₂)
        have ne : k₁ ≠ k₂ := by
          rintro rfl
          have zero := (freeHandle_some free₂).2
          rw [open₁, found₁.refCount] at zero
          cases zero
        simp only [Act.attempt_bind_run run', Act.bind_run Act.read, Act.read_run, Act.andThen_ok]
        generalize hx : setHandle k₂ c₂ w = x at quiet₂
        have open₁ : x.handles k₁ = c₁ := by
          rw [← hx, ← open₁, ← reads'.handles]
          exact Function.update_of_ne ne ..
        have open₂ : x.handles k₂ = c₂ := by rw [← hx]; exact Function.update_self ..
        have valid : handleValid x (some k₂) = true := by
          unfold handleValid
          simp only [open₂, found₂.refCount, (freeHandle_some free₂).1]
          rfl
        have id₂ : (x.handles k₂).imgId ≠ sblImgId := by
          rw [open₂, found₂.imgId]
          decide
        obtain ⟨r, y, l, copy, handles, copied⟩ := copyFs_touches e k₁ k₂
          (blockCount c₁.imgSize * blockSize) (blockCount c₁.imgSize) 0 x valid id₂ (by omega)
          (found₁.copy_lt (by decide)) rfl
        rw [open₂] at copied
        have cxt' : y.cxt = s.cxt := copied.cxt.trans (quiet₂.cxt.trans cxt)
        have here : Lookup s.flash (activeFwd s.rram) fs2ImgId c₂ := by
          rw [← quiet.flash, ← quiet₁.flash, ← quiet.rram]
          exact found₂
        rw [open₁]
        simp only [Act.attempt_bind_run copy, Fw.free, Act.bind_run, Act.emit_run, Act.andThen_ok,
          Act.update_run]
        have done : CopiesFs e s _ _ := .inr ⟨c₂, here, ((found.trans (.quiet quiet₂)).mono
          fun _ _ _ no => no.elim).trans copied⟩
        have cleaned : Touches e (fun _ _ _ => False) y ([.note (.free .blockBuf)] ++ ([] ++ []))
            (releaseHandle k₂ (releaseHandle k₁ y)) :=
          (touches_free _ _).trans ((Touches.quiet (quiet_release (free k₁ cxt'))).trans
            (.quiet (quiet_release (free k₂ cxt'))))
        have all := done.then cleaned
        cases r with
        | error err => exact ⟨_, _, _, rfl, by simpa using all⟩
        | ok _ => exact ⟨_, _, _, rfl, by simpa using all⟩

theorem processDuplicateFs_moves : Sound (Move e retry) (In .duplicateFs) (processDuplicateFs e)
    fun _ s l => In .duplicateFs s l := by
  rintro s h ⟨c, hc, ctl, state⟩
  have loose := ctl.loose (by rw [state]; rfl) (.inl (by rw [state]; rintro ⟨⟩))
  obtain ⟨r, t, l, run, copies⟩ := processDuplicateFs_copies e hc loose
  obtain ⟨cxt, ctl'⟩ := copies.kept hc ctl
  rw [run]
  exact ⟨copies.moves hc (by rw [state]; rfl) h, c, cxt, ctl', state⟩

/-! ## Images that are not downloaded -/

theorem copyImage_touches (e : Env) (index hdl : Nat) {c : Cxt} {k : Nat}
    (hk : c.partitionHdl = some k) (size : Nat) (n offset : Nat) (s : St) (hc : s.cxt = some c)
    (valid : handleValid s (some k) = true) (fits : 0 < n → offset + (n - 1) * blockSize < size)
    (aligned : offset % blockSize = 0) :
    ∃ r t l, copyImage e index hdl n offset s = ⟨r, t, l⟩ ∧ t.handles = s.handles ∧
      Touches e (fun who op _ => ∃ o, who = .image index (s.handles k) o ∧
        CopyOp (s.handles k) size o op) s l t := by
  induction n generalizing offset s with
  | zero => exact ⟨.ok (), s, [], rfl, rfl, .refl s⟩
  | succ n ih =>
    unfold copyImage
    obtain ⟨ok, buf, t, run, reads, len⟩ := readPartition_cases e hdl offset blockSize s
    have quiet : Touches e (fun who op _ => ∃ o, who = .image index (s.handles k) o ∧
        CopyOp (s.handles k) size o op) s [] t := .quiet reads.quiet
    have hct : t.cxt = some c := reads.cxt.trans hc
    have valid' : handleValid t (some k) = true := by
      unfold handleValid at valid ⊢
      rw [reads.handles]
      exact valid
    have lt : offset < size := by
      have := fits (Nat.succ_pos n)
      omega
    obtain ⟨r, u, l, block, handles, touches⟩ := copyBlock_touches e (some index) valid' lt aligned
      len
    rw [reads.handles] at touches
    have touches := quiet.trans (touches.mono fun who op _ ⟨hw, copy, _⟩ => ⟨offset, hw, copy⟩)
    simp only [Act.bind_ok run, Act.bind_ok (getCxt_run hct), hk]
    rw [← Act.bind_assoc, Act.bind_run, block]
    have same : u.handles = s.handles := handles.trans reads.handles
    cases r with
    | error err => exact ⟨_, u, l, rfl, same, touches⟩
    | ok _ =>
      obtain ⟨r, v, l', run', handles', more⟩ := ih (offset + blockSize) u
        (touches.cxt.trans hc) (by unfold handleValid at valid ⊢; rw [same]; exact valid)
        (fun pos => by have := fits (Nat.succ_pos n); unfold blockSize at this ⊢; omega)
        (by rw [Nat.add_mod, aligned]; rfl)
      rw [same] at more handles'
      rw [Act.andThen_ok, run']
      exact ⟨r, v, l ++ l', rfl, handles', touches.trans more⟩

/-- The session in `DUPLICATE_IMAGES`, with the images that are left to look at. -/
structure Copying (hdrs imgs : List ImageHdr) (s : St) (c : Cxt) : Prop where
  cxt : s.cxt = some c
  ctl : Ctl s c
  state : c.fwUpgradeState = .duplicateImages
  imageHdr : s.imageHdr = some hdrs
  left : hdrs.drop c.duplicateIndex = imgs

section Copying
variable {hdrs imgs : List ImageHdr} {img : ImageHdr} {s t : St} {c : Cxt}

theorem Copying.inState (h : Copying hdrs imgs s c) (l : List Event) : In .duplicateImages s l :=
  ⟨c, h.cxt, h.ctl, h.state⟩

theorem Copying.loose (h : Copying hdrs imgs s c) : c.partitionHdl = none :=
  h.ctl.loose (by rw [h.state]; rfl) (.inl (by rw [h.state]; rintro ⟨⟩))

theorem Copying.looseAt (h : Copying hdrs imgs s c) (cxt : t.cxt = s.cxt) (k : Nat) :
    Loose k t := by
  intro c' hc'
  rw [cxt, h.cxt] at hc'
  cases hc'
  rw [h.loose]
  rintro ⟨⟩

theorem Copying.hdr (h : Copying hdrs (img :: imgs) s c) :
    hdrs[c.duplicateIndex]? = some img ∧ hdrs.drop (c.duplicateIndex + 1) = imgs := by
  constructor
  · rw [← List.head?_drop, h.left, List.head?_cons]
  · rw [← List.tail_drop, h.left, List.tail_cons]

theorem Copying.quiet (h : Copying hdrs imgs s c) (q : Quiet s t) : Copying hdrs imgs t c :=
  ⟨q.cxt.trans h.cxt, h.ctl.quiet h.cxt q, h.state, q.imageHdr.trans h.imageHdr, h.left⟩

/-- Between two images. -/
def Cxt.copied (c : Cxt) (start index : Nat) : Cxt :=
  { c with partitionHdl := none, trialMemStart := start, duplicateIndex := index }

theorem Ctl.copied (ctl : Ctl s c) (state : c.fwUpgradeState = .duplicateImages)
    (init : t.fuInitialized = true) (imageHdr : t.imageHdr = s.imageHdr) (start index : Nat) :
    Ctl t (c.copied start index) := by
  obtain ⟨first, le⟩ := ctl.late (by rw [state]; rfl)
  refine ⟨init, by rintro k ⟨⟩, ctl.first, fun h => ?_, fun _ _ => rfl, ?_, ctl.image,
    ctl.disconnect, ctl.current, ctl.full, fun _ h => absurd rfl h, ctl.late, fun h => ?_,
    ctl.trial, ctl.config⟩
  · cases h.symm.trans first
  · rw [imageHdr]
    exact ctl.accepted
  · change c.fwUpgradeState.late = false at h
    rw [state] at h
    cases h

theorem Copying.skip (h : Copying hdrs (img :: imgs) s c) : Copying hdrs imgs
    (s.withCxt { c with duplicateIndex := c.duplicateIndex + 1 })
    { c with duplicateIndex := c.duplicateIndex + 1 } := by
  have same : c.copied c.trialMemStart (c.duplicateIndex + 1) =
      { c with duplicateIndex := c.duplicateIndex + 1 } := by
    unfold Cxt.copied
    rw [← h.loose]
  refine ⟨rfl, ?_, h.state, h.imageHdr, h.hdr.2⟩
  rw [← same]
  exact h.ctl.copied (t := s.withCxt _) h.state h.ctl.init rfl _ _

end Copying

/-- The copy of one image, from the creation of its partition on. -/
def copyPass (e : Env) (img : ImageHdr) (c : Cxt) (hdl : Nat)
    (next : Except Status Unit → M (Option Status)) : M (Option Status) := do
  match ← (newPartition e (some c.duplicateIndex) img.imageId img.version c.trialMemStart
      img.diskSize).attempt with
  | .error _ =>
    Act.update (releaseHandle hdl)
    pure (some .flashCreatePartition)
  | .ok _ =>
    let r ← (copyImage e c.duplicateIndex hdl (blockCount img.diskSize) 0).attempt
    Act.update (releaseHandle hdl)
    releasePartition
    updateCxt fun c => { c with
      trialMemStart := (c.trialMemStart + img.diskSize) % 2 ^ 32
      duplicateIndex := c.duplicateIndex + 1 }
    next r

theorem copyPass_moves {hdrs imgs : List ImageHdr} {img : ImageHdr} {c : Cxt} {s : St} {hdl : Nat}
    (h : Copying hdrs (img :: imgs) s c) (used : 0 < (s.handles hdl).refCount)
    (flag : c.downloadFlag c.duplicateIndex = false) (special : isSpecial img.imageId = false)
    {next : Except Status Unit → M (Option Status)}
    (rest : ∀ r, Sound (Move e retry) (fun s _ => ∃ c, Copying hdrs imgs s c) (next r)
      fun _ s l => In .duplicateImages s l) (hist : List Event) :
    Moves e retry (s, hist) ((copyPass e img c hdl next s).state,
        hist ++ (copyPass e img c hdl next s).trace) ∧
      In .duplicateImages (copyPass e img c hdl next s).state
        (hist ++ (copyPass e img c hdl next s).trace) := by
  have hc := h.cxt
  have state := h.state
  obtain ⟨hdr, left⟩ := h.hdr
  unfold copyPass
  rcases newPartition_cases e c.duplicateIndex img.imageId img.version c.trialMemStart img.diskSize
    hc with ⟨err, t, run, reads⟩ | ⟨slot, out, t, bad, entered, run⟩ |
    ⟨slot, k, t, entered, free, run⟩
  · have quiet := reads.quiet.trans (quiet_release (k := hdl) (h.looseAt reads.cxt hdl))
    simp only [Act.attempt_bind_run run, Act.bind_ok (Act.update_run _ _), Act.pure_run,
      List.append_nil]
    exact ⟨.single (.quiet quiet), (h.quiet quiet).inState hist⟩
  · have step : Move e retry (s, hist) _ := .noEntry hc (by rw [state]; rfl) rfl bad entered
    have cxt := entered.touches.cxt
    have ctl := h.ctl.touches hc entered.touches
    have quiet := quiet_release (h.looseAt cxt hdl)
    have hct := cxt.trans hc
    simp only [Act.attempt_bind_run run, Act.bind_ok (Act.update_run _ _), Act.pure_run,
      List.append_nil]
    exact ⟨.tail (.single step) (.quiet quiet), c, quiet.cxt.trans hct, ctl.quiet hct quiet, state⟩
  · have ne : k ≠ hdl := by
      rintro rfl
      rw [(freeHandle_some free).2] at used
      cases used
    generalize hclient : c.client slot img.imageId img.version c.trialMemStart img.diskSize = client
      at run entered
    have fwd : client.fwdIdx = c.trialFwdIdx := by rw [← hclient]; rfl
    have slotEq : client.imgIdx = slot := by rw [← hclient]; rfl
    have placed : Move e retry (s, hist) _ := .dupPlace (k := k)
      (Function.update t.handles k client) hc state h.loose h.imageHdr hdr flag special fwd
      (by rw [← hclient]; rfl) (by rw [← hclient]; rfl) (by rw [← hclient]; rfl) entered
      (Function.update_self ..)
    rw [fwd, slotEq] at placed
    change Move e retry (s, hist) ((setHandle k client t).withCxt { c with partitionHdl := some k },
      _) at placed
    generalize hv : (setHandle k client t).withCxt { c with partitionHdl := some k } = v
      at run placed
    have hvc : v.cxt = some { c with partitionHdl := some k } := by rw [← hv]; rfl
    have hvk : v.handles k = client := by rw [← hv]; exact Function.update_self ..
    have imageHdr : v.imageHdr = some hdrs := by
      rw [← hv]
      exact entered.touches.imageHdr.trans h.imageHdr
    have init : v.fuInitialized = true := by
      rw [← hv]
      exact (entered.touches.init h.ctl.init).1
    have valid : handleValid v (some k) = true := by
      unfold handleValid
      rw [← hclient] at hvk
      simp only [hvk, (freeHandle_some free).1]
      rfl
    obtain ⟨r, w, l, copy, handles, touches⟩ := copyImage_touches e c.duplicateIndex hdl
      (c := { c with partitionHdl := some k }) rfl img.diskSize (blockCount img.diskSize) 0 v hvc
      valid (fun pos => by unfold blockCount blockSize at *; omega) rfl
    have worked : ∀ l', Move e retry (v, l') (w, l' ++ l) := fun l' =>
      .dupWork hvc state (partition_held hvc rfl) imageHdr hdr touches
    have hwc : w.cxt = some { c with partitionHdl := some k } := touches.cxt.trans hvc
    have loose : Loose hdl w := by
      intro c' hc'
      rw [hwc] at hc'
      cases hc'
      rintro ⟨⟩
      exact ne rfl
    have quiet := quiet_release loose
    simp only [Act.attempt_bind_run run, Act.attempt_bind_run copy,
      Act.bind_ok (Act.update_run _ _)]
    generalize releaseHandle hdl w = x at quiet
    have hxc : x.cxt = some { c with partitionHdl := some k } := quiet.cxt.trans hwc
    have xHdr : x.imageHdr = some hdrs := quiet.imageHdr.trans (touches.imageHdr.trans imageHdr)
    have next : ∀ l', Move e retry (x, l') _ := fun l' =>
      .dupNext (freed (some k) x.handles) hxc state (by rintro ⟨⟩) xHdr hdr flag special
    rw [Act.bind_ok (releasePartition_run hxc), Act.bind_ok (updateCxt_run rfl _)]
    have copying : Copying hdrs imgs (x.hold (freed (some k) x.handles) (some (c.copied
        ((c.trialMemStart + img.diskSize) % 2 ^ 32) (c.duplicateIndex + 1))))
        (c.copied ((c.trialMemStart + img.diskSize) % 2 ^ 32) (c.duplicateIndex + 1)) := by
      refine ⟨rfl, ?_, state, xHdr, left⟩
      apply h.ctl.copied state
      · exact (quiet.init (touches.init init).1).1
      · exact xHdr.trans h.imageHdr.symm
    obtain ⟨moves, last⟩ := rest r _ (hist ++ [.op (.entry c.trialFwdIdx slot) client.entryOp .done,
      .created c.duplicateIndex client] ++ l) ⟨_, copying⟩
    rw [← List.append_assoc, ← List.append_assoc]
    exact ⟨.head placed (.head (worked _) (.head (.quiet quiet) (.head (next _) moves))), last⟩

variable (e retry) in
theorem duplicateImages_moves (active : Nat) (hdrs imgs : List ImageHdr) (ret : Option Status) :
    Sound (Move e retry) (fun s _ => ∃ c, Copying hdrs imgs s c)
      (duplicateImages e active imgs ret) fun _ s l => In .duplicateImages s l := by
  induction imgs generalizing ret with
  | nil => exact .pure _ fun s l ⟨c, h⟩ => h.inState l
  | cons img imgs ih =>
    rintro s hist ⟨c, h⟩
    have hc := h.cxt
    have state := h.state
    obtain ⟨hdr, rest⟩ := h.hdr
    unfold duplicateImages
    rw [Act.bind_ok (getCxt_run hc), Act.ite_run]
    split
    · rename_i copy
      rw [Bool.and_eq_true, Bool.not_eq_true', Bool.not_eq_true'] at copy
      rcases findPartition_cases e active img.imageId s with ⟨err, t, run, reads⟩ |
        ⟨k, client, t, run, reads, free, found⟩
      · simp only [Act.attempt_bind_run run, Act.pure_run, List.append_nil]
        exact ⟨.single (.quiet reads.quiet), (h.quiet reads.quiet).inState hist⟩
      · have quiet := reads.quiet.trans (quiet_setHandle (h.looseAt reads.cxt k) client)
        have used : 0 < ((setHandle k client t).handles k).refCount := by
          rw [show (setHandle k client t).handles k = client from Function.update_self ..,
            found.refCount]
          exact Nat.one_pos
        simp only [Act.attempt_bind_run run, List.nil_append]
        have pass := fun next rest => @copyPass_moves e retry hdrs imgs img c _ k
          (h.quiet quiet) used copy.1 copy.2 next rest hist
        exact ⟨.head (.quiet quiet) (pass _ fun r => ih _).1, (pass _ fun r => ih _).2⟩
    · rename_i keep
      have kept : c.downloadFlag c.duplicateIndex = true ∨ isSpecial img.imageId = true := by
        cases hf : c.downloadFlag c.duplicateIndex
        · cases hs : isSpecial img.imageId
          · rw [hf, hs] at keep
            exact absurd rfl keep
          · exact .inr rfl
        · exact .inl rfl
      have step : Move e retry (s, hist) _ := .dupSkip hc state h.loose h.imageHdr hdr kept
      rw [Act.bind_ok (updateCxt_run hc _)]
      obtain ⟨moves, last⟩ := ih ret _ hist ⟨_, h.skip⟩
      exact ⟨.head step moves, last⟩

/-- `DUPLICATE_IMAGES` is entered for the first time, unless it may be retried. -/
def Enters (retry : Bool) (s : St) (l : List Event) : Prop :=
  In .duplicateImages s l ∧ (retry = true ∨ NotBegun s)

theorem leaveCopy_moves (ret : Option Status) : Sound (Move e retry) (In .duplicateImages) (do
    releasePartition
    Fw.free .blockBuf
    match ret with
    | none => pure ()
    | some err => Act.fail err) fun _ s l => In .duplicateImages s l := by
  rintro s h ⟨c, hc, ctl, state⟩
  rw [Act.bind_ok (releasePartition_run hc)]
  have detached : Move e retry (s, h) _ := .detach (freed c.partitionHdl s.handles) hc
  have inside : In .duplicateImages (s.hold (freed c.partitionHdl s.handles)
      (some (c.copied c.trialMemStart c.duplicateIndex))) h := by
    refine ⟨_, rfl, ?_, state⟩
    apply ctl.copied state
    · exact ctl.init
    · rfl
  have left : Moves e retry (s, h) (s.hold (freed c.partitionHdl s.handles)
      (some (c.copied c.trialMemStart c.duplicateIndex)), h ++ [.note (.free .blockBuf)]) :=
    .tail (.single detached) (.note _)
  cases ret with
  | none => exact ⟨left, inside⟩
  | some err => exact ⟨left, inside⟩

theorem processDuplicateImages_moves : Sound (Move e retry) (Enters retry)
    (processDuplicateImages e) fun _ s l => In .duplicateImages s l := by
  rintro s hist ⟨⟨c, hc, ctl, state⟩, again⟩
  have loose := ctl.loose (by rw [state]; rfl) (.inl (by rw [state]; rintro ⟨⟩))
  obtain ⟨first, -⟩ := ctl.late (by rw [state]; rfl)
  obtain ⟨hdrs, imageHdr, -⟩ := ctl.accepted first
  unfold processDuplicateImages
  obtain ⟨ok, t, run, eq, -⟩ := malloc_run .blockBuf s
  have quiet : Quiet s t := by
    rw [eq]
    exact quiet_oom s _
  have hct := quiet.cxt.trans hc
  have ctl' := ctl.quiet hc quiet
  have start : Moves e retry (s, hist) (t, hist ++ [.note (if ok then .alloc .blockBuf
    else .denied .blockBuf)]) := .tail (.single (.quiet quiet)) (.note _)
  rw [Act.bind_ok (Act.read_run s), Act.bind_run, run, Act.andThen_ok]
  cases ok with
  | false =>
    simp only [Bool.not_false, if_true, Act.bind_ok (releasePartition_run hct), Act.fail_run,
      List.append_nil]
    refine ⟨.tail start (.detach _ hct), c.copied c.trialMemStart c.duplicateIndex, rfl, ?_, state⟩
    apply ctl'.copied state
    · exact ctl'.init
    · rfl
  | true =>
    have begins : Move e retry (t, hist ++ [.note (.alloc .blockBuf)])
        (t.withCxt { c with duplicateIndex := 0 }, hist ++ [.note (.alloc .blockBuf)]) := by
      apply Move.dupBegin hct state
      exact again.imp_right fun notBegun => notBegun c hc state
    have copying : Copying hdrs hdrs (t.withCxt { c with duplicateIndex := 0 })
        { c with duplicateIndex := 0 } := by
      have same : c.copied c.trialMemStart 0 = { c with duplicateIndex := 0 } := by
        unfold Cxt.copied
        rw [← loose]
      refine ⟨rfl, ?_, state, quiet.imageHdr.trans imageHdr, rfl⟩
      rw [← same]
      apply ctl'.copied state
      · exact ctl'.init
      · rfl
    simp only [Bool.not_true, Bool.false_eq_true, if_false, Act.bind_ok (updateCxt_run hct _),
      imageHdr, Option.getD_some]
    obtain ⟨moves, last⟩ := Sound.andThen (duplicateImages_moves e retry
      (activeFwd s.rram) hdrs hdrs none) (fun _ _ _ h => h) (fun ret => leaveCopy_moves ret) _
      (hist ++ [.note (.alloc .blockBuf)]) ⟨_, copying⟩
    rw [← List.append_assoc]
    exact ⟨start.trans (.head begins moves), last⟩

end Qapp.Fw
