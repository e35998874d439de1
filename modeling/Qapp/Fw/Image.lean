import Qapp.Fw.Header

/-!
# Receiving the images
-/

namespace Qapp.Fw
open ByteMem Traced
open Relation (ReflTransGen)

variable {e : Env} {retry : Bool}

/-! ## Devices and the session apart -/

/-- The same devices under another session. -/
def St.hold (s : St) (hs : Nat → Client) (x : Option Cxt) : St :=
  { s with handles := hs, cxt := x }

theorem Quiet.hold {s t : St} (h : Quiet s t) (hs : Nat → Client) (x : Option Cxt) :
    Quiet (s.hold hs x) (t.hold hs x) :=
  ⟨h.flash, h.rram, rfl, h.imageHdr, h.init, rfl, h.reads, h.ops⟩

theorem Possible.hold {s : St} {op : Op} {out : Outcome} (h : Possible e s op out)
    (hs : Nat → Client) (x : Option Cxt) : Possible e (s.hold hs x) op out :=
  ⟨h.inside, h.outside, h.fault⟩

theorem Ran.hold {s t : St} {op : Op} {out : Outcome} (h : Ran s op out t)
    (hs : Nat → Client) (x : Option Cxt) : Ran (s.hold hs x) op out (t.hold hs x) := by
  constructor
  · rw [h.eq]
    cases op <;> cases out <;> rfl
  · exact h.suffix

theorem EraseRun.hold {who : Issuer} {c : Client} {offset n : Nat} {s t : St} {l : List Event}
    {ok : Bool} (h : EraseRun e who c offset n s l t ok) (hs : Nat → Client) (x : Option Cxt) :
    EraseRun e who c offset n (s.hold hs x) l (t.hold hs x) ok := by
  cases h with
  | skipped id => exact .skipped id
  | done fits possible ran => exact .done fits (possible.hold hs x) (ran.hold hs x)
  | failed bad fits possible ran => exact .failed bad fits (possible.hold hs x) (ran.hold hs x)
  | refused no => exact .refused no

theorem WriteRun.hold {who : Issuer} {c : Client} {offset : Nat} {bytes : List UInt8} {s t : St}
    {l : List Event} {ok : Bool} (h : WriteRun e who c offset bytes s l t ok)
    (hs : Nat → Client) (x : Option Cxt) :
    WriteRun e who c offset bytes (s.hold hs x) l (t.hold hs x) ok := by
  cases h with
  | done fits around quiet possible ran =>
    exact .done fits around (quiet.hold hs x) (possible.hold hs x) (ran.hold hs x)
  | failed bad fits around quiet possible ran =>
    exact .failed bad fits around (quiet.hold hs x) (possible.hold hs x) (ran.hold hs x)
  | refused no => exact .refused no
  | denied quiet => exact .denied (quiet.hold hs x)

theorem withCxt_self {s : St} {c : Cxt} (hc : s.cxt = some c) : s.withCxt c = s := by
  unfold St.withCxt
  rw [← hc]

/-! ## Partitions of the trial FWD -/

/-- The handle a session gets is in use. -/
theorem valid_held {s : St} {c : Cxt} (ctl : Ctl s c) {k : Nat} (hk : c.partitionHdl = some k) :
    handleValid s (some k) = true := by
  obtain ⟨lt, pos⟩ := ctl.held k hk
  unfold handleValid
  simp only [lt, pos, decide_true, Bool.and_self]

/-- The client a new partition of the session's trial FWD gets. -/
def Cxt.client (c : Cxt) (slot id version start size : Nat) : Client :=
  ⟨c.trialFwdIdx, slot, id, version, start, size, 1⟩

theorem newPartition_cases (e : Env) (i id version start size : Nat) {s : St} {c : Cxt}
    (hc : s.cxt = some c) :
    (∃ err t, newPartition e (some i) id version start size s = ⟨.error err, t, []⟩ ∧ Reads s t) ∨
    (∃ slot out t, out ≠ .done ∧ Entered e s (c.client slot id version start size) out t ∧
      newPartition e (some i) id version start size s = ⟨.error .error, t,
        [.op (.entry c.trialFwdIdx slot) (c.client slot id version start size).entryOp out]⟩) ∨
    ∃ slot k t, Entered e s (c.client slot id version start size) .done t ∧
      freeHandle s = some k ∧
      newPartition e (some i) id version start size s = ⟨.ok (),
        (setHandle k (c.client slot id version start size) t).withCxt
          { c with partitionHdl := some k },
        [.op (.entry c.trialFwdIdx slot) (c.client slot id version start size).entryOp .done,
          .created i (c.client slot id version start size)]⟩ := by
  unfold newPartition
  simp only [Act.bind_run, getCxt_run hc, Act.andThen_ok, List.nil_append]
  rcases createPartition_cases e c.trialFwdIdx id version start size s with
    ⟨err, t, run, reads⟩ | ⟨slot, out, t, entered, ⟨rfl, k, free, run⟩ | ⟨bad, run⟩⟩
  · rw [run]
    exact .inl ⟨err, t, rfl, reads⟩
  · have hct : (setHandle k (c.client slot id version start size) t).cxt = some c :=
      entered.touches.cxt.trans hc
    refine .inr (.inr ⟨slot, k, t, entered, free, ?_⟩)
    unfold Cxt.client at hct
    rw [run]
    simp only [Act.andThen_ok, Act.bind_run, updateCxt_run hct, Act.read_run, Act.emit_run,
      withCxt_handles, List.nil_append, List.cons_append, Cxt.client]
    simp only [setHandle, Function.update_self]
  · rw [run]
    exact .inr (.inl ⟨slot, out, t, bad, entered, rfl⟩)

/-- The session with no partition held. -/
def Cxt.loosed (c : Cxt) : Cxt := { c with partitionHdl := none }

/-- FS1 takes the place of the running FS2, which is looked up first. -/
theorem createFs1_cases (e : Env) (img : ImageHdr) {s : St} {c : Cxt} (hc : s.cxt = some c)
    (ctl : Ctl s c) :
    (∃ err t, createFs1 e img s = ⟨.error err, t, []⟩ ∧ Quiet s t) ∨
    ∃ fs2 t hs, Quiet s t ∧ Lookup s.flash (activeFwd s.rram) fs2ImgId fs2 ∧
      createFs1 e img s = if fs2.imgSize < img.diskSize then
          ⟨.error .incorrectImageLength, t.hold hs (some c.loosed), []⟩
        else ((newPartition e (some c.imageIndex) img.imageId img.version fs2.imgStart
          fs2.imgSize).orFail .flashCreatePartition) (t.hold hs (some c.loosed)) := by
  obtain ⟨r, t, run, quiet, -, opened⟩ := (findPartition_reads e (activeFwd s.rram)
    fs2ImgId).exists_run (l := []) ⟨ctl.heldSt hc, ctl.init⟩
  have hct := quiet.cxt.trans hc
  unfold createFs1
  cases r with
  | error err =>
    simp only [openPartition, Act.bind_run, Act.read_run, Act.andThen_ok, Act.orFail, run,
      Act.andThen_error, List.nil_append]
    exact .inl ⟨_, t, rfl, quiet⟩
  | ok k =>
    have found := (opened k rfl).found
    rw [quiet.flash] at found
    have opens : openPartition e (activeFwd s.rram) fs2ImgId s =
        ⟨.ok (t.handles k), t.withCxt { c with partitionHdl := some k }, []⟩ := by
      simp only [openPartition, Act.bind_run, run, Act.andThen_ok, updateCxt_run hct,
        Act.read_run, Act.pure_run, List.nil_append, withCxt_handles]
    refine .inr ⟨t.handles k, t, freed (some k) t.handles, quiet, found, ?_⟩
    have release : releasePartition (t.withCxt { c with partitionHdl := some k }) =
        ⟨.ok (), t.hold (freed (some k) t.handles) (some c.loosed), []⟩ :=
      releasePartition_run (withCxt_cxt t _)
    have hc' : (t.hold (freed (some k) t.handles) (some c.loosed)).cxt = some c.loosed := rfl
    generalize t.hold (freed (some k) t.handles) (some c.loosed) = u at release hc' ⊢
    simp only [Act.bind_run, Act.read_run, Act.andThen_ok, Act.orFail, opens, release,
      Act.ite_run, List.nil_append]
    split
    · rfl
    · simp only [getCxt_run hc', Act.andThen_ok, List.nil_append]
      rfl

/-! ## Starting an image -/

/-- The fields that receiving an image changes. -/
structure SameBut (c c' : Cxt) : Prop where
  eq : c' = { c with
    bufOffset := c'.bufOffset, imageWrtCount := c'.imageWrtCount,
    imageWrtLength := c'.imageWrtLength, partitionHdl := c'.partitionHdl, digest := c'.digest }

theorem Ctl.imaging {s t : St} {c c' : Cxt} (ctl : Ctl s c)
    (state : c.fwUpgradeState = .processImage) (same : SameBut c c')
    (init : t.fuInitialized = true) (imageHdr : t.imageHdr = s.imageHdr)
    (held : ∀ k, c'.partitionHdl = some k → k < maxHandles ∧ 0 < (t.handles k).refCount)
    (count : c'.partitionHdl ≠ none →
      c'.imageWrtLength = 0 ∨ c'.imageWrtCount < c'.imageWrtLength) : Ctl t c' := by
  have first := (ctl.image state).1
  have same := same.eq
  generalize c'.bufOffset = bufOffset at same
  generalize c'.digest = digest at same
  generalize hh : c'.partitionHdl = hdl at same held count
  generalize hl : c'.imageWrtLength = len at same count
  generalize hn : c'.imageWrtCount = cnt at same count
  subst same
  exact {
    init := init
    held := held
    first := ctl.first
    fresh := fun h => by rw [first] at h; cases h
    loose := fun h => by simp only [state] at h; cases h
    accepted := fun h => by rw [imageHdr]; exact ctl.accepted h
    image := ctl.image
    disconnect := ctl.disconnect
    current := ctl.current
    full := ctl.full
    count := fun _ => count
    late := ctl.late
    dup := ctl.dup
    trial := ctl.trial
    config := ctl.config }

theorem Current.congr {s t : St} {c c' : Cxt} {img : ImageHdr} (h : Current s c img)
    (same : SameBut c c') (imageHdr : t.imageHdr = s.imageHdr) : Current t c' img := by
  have same := same.eq
  constructor
  · rw [same]; exact h.state
  · rw [same]; exact h.first
  · rw [same]; exact h.lt
  · rw [same]; exact h.flag
  · rw [same, imageHdr]; exact h.hdr

/-- The context once `img` is the image being received. -/
def Cxt.begun (c : Cxt) (img : ImageHdr) : Cxt :=
  { c with imageWrtCount := 0, imageWrtLength := img.imageLength }

theorem hasImageHdr_iff {s : St} {c : Cxt} (hc : s.cxt = some c) (i : Nat) :
    s.hasImageHdr i = true ↔ s.imageHdr.isSome = true ∧ i < c.totalImages := by
  unfold St.hasImageHdr
  rw [hc, Bool.and_eq_true, decide_eq_true_iff]
  rfl

theorem readImageHdr_run (p : Packet) {s : St} {c : Cxt} (hc : s.cxt = some c) (ctl : Ctl s c)
    (state : c.fwUpgradeState = .processImage) : ∃ img, readImageHdr p c.imageIndex s =
      ⟨.ok img, s, [.note (.header c.imageIndex true)]⟩ ∧ Current s c img := by
  have first := (ctl.image state).1
  obtain ⟨hdrs, imageHdr, len⟩ := ctl.accepted first
  obtain ⟨lt, flag⟩ := ctl.current first (by rw [state]; rfl)
  refine ⟨hdrs[c.imageIndex], ?_, state, first, lt, flag, hdrs, imageHdr, ?_⟩
  · have inside : s.hasImageHdr c.imageIndex = true := by
      rw [hasImageHdr_iff hc, imageHdr]
      exact ⟨rfl, lt⟩
    unfold readImageHdr
    simp only [Act.bind_run, Act.emit_run, Act.read_run, Act.andThen_ok, imageHdr, inside,
      Option.getD_some, Act.pure_run, List.append_nil, List.nil_append]
    rw [List.getD_eq_getElem?_getD, List.getElem?_eq_getElem]
    rfl
  · exact List.getElem?_eq_getElem _

theorem SameBut.refl (c : Cxt) : SameBut c c := ⟨rfl⟩

theorem SameBut.trans {c d x : Cxt} (h : SameBut c d) (k : SameBut d x) : SameBut c x := by
  constructor
  have hd := h.eq
  have hx := k.eq
  rw [hd] at hx
  exact hx

/-- What starting an image leaves when it succeeds. The digest is still to be set. -/
structure Started (e : Env) (retry : Bool) (s : St) (h : List Event) (c : Cxt) (img : ImageHdr)
    (t : St) (l : List Event) (c' : Cxt) : Prop where
  cxt : t.cxt = some c'
  same : SameBut c c'
  ctl : Ctl t c'
  current : Current t c' img
  len : c'.imageWrtLength = img.imageLength
  count : c'.imageWrtCount = 0
  offset : c'.bufOffset = c.bufOffset
  held : c'.partitionHdl ≠ none
  moves : ∀ d, (0 < img.imageLength → d = .starts) →
    Moves e retry (s, h) (t.withCxt { c' with digest := d }, h ++ l)

/-- An image that could not be started is still the current one. -/
def Stopped (e : Env) (retry : Bool) (s : St) (h : List Event) (t : St) (l : List Event) : Prop :=
  Moves e retry (s, h) (t, h ++ l) ∧ In .processImage t (h ++ l)

/-- The context of an image whose partition is about to be created. -/
structure Placing (s : St) (c : Cxt) (img : ImageHdr) : Prop where
  cxt : s.cxt = some c
  ctl : Ctl s c
  current : Current s c img
  count : c.imageWrtCount = 0
  len : c.imageWrtLength = img.imageLength

theorem Placing.quiet {s t : St} {c : Cxt} {img : ImageHdr} (h : Placing s c img)
    (q : Quiet s t) : Placing t c img where
  cxt := q.cxt.trans h.cxt
  ctl := h.ctl.quiet h.cxt q
  current := h.current.congr (.refl c) q.imageHdr
  count := h.count
  len := h.len

theorem Placing.stopped {s t : St} {c : Cxt} {img : ImageHdr} (p : Placing s c img)
    (q : Quiet s t) (h : List Event) : Stopped e retry s h t [] := by
  refine ⟨?_, c, q.cxt.trans p.cxt, p.ctl.quiet p.cxt q, p.current.state⟩
  rw [List.append_nil]
  exact .single (.quiet q)

/-- An entry whose write fails. -/
theorem Placing.noEntry {s t : St} {c : Cxt} {img : ImageHdr} (p : Placing s c img)
    {slot id version start size : Nat} {out : Outcome} (bad : out ≠ .done)
    (entered : Entered e s (c.client slot id version start size) out t) (h : List Event) :
    Stopped e retry s h t [.op (.entry c.trialFwdIdx slot)
      (c.client slot id version start size).entryOp out] := by
  have state := p.current.state
  refine ⟨.single (.noEntry p.cxt (by rw [state]; rfl) rfl bad entered), c,
    entered.touches.cxt.trans p.cxt, p.ctl.touches p.cxt entered.touches, state⟩

theorem Placing.entered {s t : St} {c : Cxt} {img : ImageHdr} (p : Placing s c img)
    {slot id version start size k : Nat}
    (entered : Entered e s (c.client slot id version start size) .done t)
    (free : freeHandle s = some k) :
    Ctl ((setHandle k (c.client slot id version start size) t).withCxt
      { c with partitionHdl := some k }) { c with partitionHdl := some k } := by
  apply p.ctl.imaging p.current.state ⟨rfl⟩
  · exact (entered.touches.init p.ctl.init).1
  · exact entered.touches.imageHdr
  · rintro k' ⟨⟩
    refine ⟨(freeHandle_some free).1, ?_⟩
    simp only [withCxt_handles, setHandle, Function.update_self, Cxt.client]
    decide
  · intro _
    simp only [p.len, p.count]
    omega

/-- How an action that starts an image may end. -/
def StartsImage (e : Env) (retry : Bool) (s : St) (h : List Event) (c : Cxt) (img : ImageHdr)
    (o : Out St Event Status Unit) : Prop :=
  (∃ err t l, o = ⟨.error err, t, l⟩ ∧ Stopped e retry s h t l) ∨
  ∃ t l c', o = ⟨.ok (), t, l⟩ ∧ Started e retry s h c img t l c'

/-- Moves of the session before the image is placed. -/
theorem StartsImage.after {s t : St} {h : List Event} {c d : Cxt} {img : ImageHdr}
    {o : Out St Event Status Unit} (starts : StartsImage e retry t h d img o)
    (moves : Moves e retry (s, h) (t, h)) (same : SameBut c d)
    (offset : d.bufOffset = c.bufOffset) : StartsImage e retry s h c img o := by
  rcases starts with ⟨err, u, l, run, more, inside⟩ | ⟨u, l, c', run, started⟩
  · exact .inl ⟨err, u, l, run, moves.trans more, inside⟩
  · exact .inr ⟨u, l, c', run, { started with
      same := same.trans started.same
      offset := started.offset.trans offset
      moves := fun x reset => moves.trans (started.moves x reset) }⟩

theorem placeFs1_starts {s : St} {c : Cxt} {img : ImageHdr} (p : Placing s c img)
    (fs1 : img.imageId = fs1ImgId) {fs2 : Client}
    (found : Lookup s.flash (activeFwd s.rram) fs2ImgId fs2) (fits : img.diskSize ≤ fs2.imgSize)
    (h : List Event) : StartsImage e retry s h c img (((newPartition e (some c.imageIndex)
      img.imageId img.version fs2.imgStart fs2.imgSize).orFail .flashCreatePartition) s) := by
  rcases newPartition_cases e c.imageIndex img.imageId img.version fs2.imgStart fs2.imgSize p.cxt
    with ⟨err, t, run, reads⟩ | ⟨slot, out, t, bad, entered, run⟩ | ⟨slot, k, t, entered, free, run⟩
  · left
    simp only [Act.orFail, run]
    exact ⟨_, t, _, rfl, p.stopped reads.quiet h⟩
  · left
    simp only [Act.orFail, run]
    exact ⟨_, t, _, rfl, p.noEntry bad entered h⟩
  · right
    simp only [Act.orFail, run]
    have ctl := p.entered entered free
    refine ⟨_, _, _, rfl, rfl, ⟨rfl⟩, ctl, ?_, p.len, p.count, rfl, by simp, fun d reset => ?_⟩
    · exact p.current.congr ⟨rfl⟩ entered.touches.imageHdr
    · have placed : Placed e s c img (c.client slot img.imageId img.version fs2.imgStart
          fs2.imgSize) := by
        refine ⟨rfl, rfl, rfl, fun _ => ⟨fs2, found, fits, rfl, rfl⟩, fun sbl => ?_, fun no => ?_⟩
        · rw [fs1] at sbl
          cases sbl
        · exact absurd fs1 no
      have move : Move e retry (s, h) _ := .place (l := []) (u := t) (k := k)
        (d := d) (Function.update t.handles k (c.client slot img.imageId img.version
          fs2.imgStart fs2.imgSize)) p.cxt p.current p.count p.len placed entered
        (by rw [if_pos fs1]; exact ⟨rfl, rfl, rfl⟩) (Function.update_self ..) fun _ => reset
      rw [List.append_nil] at move
      exact .single move

/-- Images that are not FS1 have their first block erased. -/
theorem placeImage_starts {s : St} {c : Cxt} {img : ImageHdr} (p : Placing s c img)
    (fs1 : img.imageId ≠ fs1ImgId) (h : List Event) : StartsImage e retry s h c img ((do
      let x ← getCxt
      let startAddr := if img.imageId = sblImgId then x.trialSblStart else x.trialMemStart
      (newPartition e (some x.imageIndex) img.imageId img.version startAddr img.diskSize).orFail
        .flashCreatePartition
      (erasePartition e (some x.imageIndex) (← getCxt).partitionHdl 0 blockSize).orFail
        .flashErasePartition : M Unit) s) := by
  simp only [StartsImage, Act.bind_run, getCxt_run p.cxt, Act.andThen_ok, List.nil_append]
  generalize hstart : (if img.imageId = sblImgId then c.trialSblStart else c.trialMemStart) = start
  rcases newPartition_cases e c.imageIndex img.imageId img.version start img.diskSize p.cxt
    with ⟨err, t, run, reads⟩ | ⟨slot, out, t, bad, entered, run⟩ | ⟨slot, k, t, entered, free, run⟩
  · left
    simp only [Act.orFail, run, Act.andThen_error]
    exact ⟨_, t, _, rfl, p.stopped reads.quiet h⟩
  · left
    simp only [Act.orFail, run, Act.andThen_error]
    exact ⟨_, t, _, rfl, p.noEntry bad entered h⟩
  · have ctl := p.entered entered free
    have placed : Placed e s c img (c.client slot img.imageId img.version start img.diskSize) := by
      refine ⟨rfl, rfl, rfl, fun h => absurd h fs1, fun sbl => ?_, fun _ sbl => ?_⟩
      · rw [if_pos sbl] at hstart
        exact ⟨hstart.symm, rfl⟩
      · rw [if_neg sbl] at hstart
        exact ⟨hstart.symm, rfl⟩
    generalize hclient : c.client slot img.imageId img.version start img.diskSize = client
      at run ctl placed entered
    have handle : (setHandle k client t).handles k = client := Function.update_self ..
    generalize hv : (setHandle k client t).withCxt { c with partitionHdl := some k } = v at run ctl
    have hvc : v.cxt = some { c with partitionHdl := some k } := by rw [← hv]; rfl
    have hvk : v.handles k = client := by rw [← hv]; exact handle
    obtain ⟨r, u, l, ok, run', res, erase, handles⟩ := erasePartition_run e (some c.imageIndex)
      0 blockSize (valid_held ctl rfl)
    rw [hvk] at erase
    -- the erase as it runs on the devices before the entry's handle is set
    have erase' := erase.hold t.handles t.cxt
    have back : v.hold t.handles t.cxt = t := by rw [← hv]; rfl
    rw [back] at erase'
    have huc : u.cxt = some { c with partitionHdl := some k } := erase.touches.cxt.trans hvc
    have move : ∀ d, (ok = true → 0 < img.imageLength → d = Digest.starts) → Move e retry (s, h) _ :=
      fun d reset => .place (k := k) (d := d) u.handles p.cxt p.current p.count p.len placed
        entered (by rw [if_neg fs1]; exact erase') (by rw [handles, hvk]) reset
    have left : ∀ d, { u.hold t.handles t.cxt with
        handles := u.handles, cxt := some { c with partitionHdl := some k, digest := d } } =
        u.withCxt { c with partitionHdl := some k, digest := d } := fun d => rfl
    simp only [left] at move
    have ctl' : Ctl u { c with partitionHdl := some k } := ctl.touches hvc erase.touches
    have imageHdr : u.imageHdr = s.imageHdr := by
      rw [erase.touches.imageHdr, ← hv]
      exact entered.touches.imageHdr
    have current : Current u { c with partitionHdl := some k } img :=
      p.current.congr ⟨rfl⟩ imageHdr
    have created : newPartition e (some c.imageIndex) img.imageId img.version start img.diskSize s =
        ⟨.ok (), v, [.op (.entry client.fwdIdx client.imgIdx) client.entryOp .done,
          .created c.imageIndex client]⟩ := by
      rw [run, ← hclient]
      rfl
    simp only [Act.orFail, created, Act.andThen_ok, Act.bind_run, getCxt_run hvc, run',
      List.nil_append]
    cases r with
    | error err =>
      left
      cases (show ok = false from res)
      have step := move c.digest (by rintro ⟨⟩)
      rw [withCxt_self huc, List.append_assoc] at step
      exact ⟨_, u, _, rfl, .single step, _, huc, ctl', p.current.state⟩
    | ok _ =>
      right
      refine ⟨u, _, _, rfl, huc, ⟨rfl⟩, ctl', current, p.len, p.count, rfl, by simp, fun d reset => ?_⟩
      have step := move d fun _ => reset
      rw [List.append_assoc] at step
      exact .single step

theorem createFs1_starts {s : St} {c : Cxt} {img : ImageHdr} (p : Placing s c img)
    (fs1 : img.imageId = fs1ImgId) (h : List Event) :
    StartsImage e retry s h c img (createFs1 e img s) := by
  rcases createFs1_cases e img p.cxt p.ctl with ⟨err, t, run, quiet⟩ |
    ⟨fs2, t, hs, quiet, found, run⟩
  · exact .inl ⟨err, t, [], run, p.stopped quiet h⟩
  · have q := p.quiet quiet
    have loosed : Placing (t.hold hs (some c.loosed)) c.loosed img := by
      refine ⟨rfl, ?_, q.current.congr ⟨rfl⟩ rfl, q.count, q.len⟩
      exact q.ctl.imaging q.current.state ⟨rfl⟩ q.ctl.init rfl (by rintro k ⟨⟩) (absurd rfl)
    have moves : Moves e retry (s, h) (t.hold hs (some c.loosed), h) :=
      .tail (.single (.quiet quiet)) (.detach hs q.cxt)
    rw [run]
    split
    · refine .inl ⟨_, _, _, rfl, ?_, c.loosed, rfl, loosed.ctl, loosed.current.state⟩
      rw [List.append_nil]
      exact moves
    · rename_i fits
      apply StartsImage.after (d := c.loosed) _ moves ⟨rfl⟩ rfl
      apply placeFs1_starts loosed fs1 _ (Nat.not_lt.mp fits)
      change Lookup t.flash (activeFwd t.rram) fs2ImgId fs2
      rw [quiet.flash, quiet.rram]
      exact found

variable (e retry) in
/-- `startImage`, called with no image begun. -/
theorem startImage_starts {s : St} {c : Cxt} {img : ImageHdr} (hc : s.cxt = some c) (ctl : Ctl s c)
    (current : Current s c img) (len : c.imageWrtLength = 0) (h : List Event) :
    StartsImage e retry s h c img (startImage e img s) := by
  have begun : Ctl (s.withCxt (c.begun img)) (c.begun img) :=
    ctl.imaging current.state ⟨rfl⟩ ctl.init rfl ctl.held fun _ => Nat.eq_zero_or_pos _
  have placing : Placing (s.withCxt (c.begun img)) (c.begun img) img :=
    ⟨rfl, begun, current.congr ⟨rfl⟩ rfl, rfl, rfl⟩
  have first : Moves e retry (s, h) (s.withCxt (c.begun img), h) := .single (.begin hc current len)
  unfold startImage
  simp only [Act.bind_run (updateCxt _), updateCxt_run hc, Act.andThen_ok, List.nil_append, Act.ite_run]
  change StartsImage e retry s h c img (if img.imageId = fs1ImgId then
    createFs1 e img (s.withCxt (c.begun img)) else _)
  apply StartsImage.after (d := c.begun img) _ first ⟨rfl⟩ rfl
  split
  · rename_i fs1
    exact createFs1_starts placing fs1 h
  · rename_i fs1
    exact placeImage_starts placing fs1 h

end Qapp.Fw
