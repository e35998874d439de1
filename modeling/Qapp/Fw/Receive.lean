import Qapp.Fw.Image

/-!
# Writing and verifying an image
-/

namespace Qapp.Fw
open ByteMem Traced
open Relation (ReflTransGen)

variable {e : Env} {retry : Bool}

/-! ## Writing -/

/-- Where the packet is read from. -/
def Cxt.source (c : Cxt) : Nat := if c.format = formatPartial then 0 else c.bufOffset

/-- How much of the packet is written. -/
def Cxt.writeLen (c : Cxt) : Nat :=
  if c.format = formatPartial then c.bufLen
  else min (c.bufLen - c.source) (c.imageWrtLength - c.imageWrtCount)

/-- The context while `bytes` are written. -/
def Cxt.taken (c : Cxt) (bytes : List UInt8) : Cxt :=
  { c with bufOffset := c.source, digest := c.digest.update bytes }

/-- The context when `bytes` have been written. -/
def Cxt.wrote (c : Cxt) (bytes : List UInt8) : Cxt :=
  { c with
    bufOffset := c.source + bytes.length
    imageWrtCount := c.imageWrtCount + bytes.length
    digest := c.digest.update bytes }

/-- The session is about to write to image `img`. -/
structure Writing (s : St) (c : Cxt) (img : ImageHdr) : Prop where
  cxt : s.cxt = some c
  ctl : Ctl s c
  current : Current s c img
  room : c.format ≠ formatPartial → c.bufOffset < c.bufLen ∧ 0 < c.imageWrtLength

/-- What the device operations of one write have done, and whether they succeeded. -/
structure Wrote (e : Env) (s : St) (c : Cxt) (bytes : List UInt8) (client : Client)
    (la lb : List Event) (a b : St) (ready ok : Bool) : Prop where
  ahead : if Crosses c.imageWrtCount bytes.length then
      EraseRun e (.image c.imageIndex client (aheadOffset c.imageWrtCount)) client
        (aheadOffset c.imageWrtCount) (aheadSize c.imageWrtCount bytes.length) s la a ready
    else la = [] ∧ a = s ∧ ready = true
  write : if ready = true then
      WriteRun e (.image c.imageIndex client c.imageWrtCount) client c.imageWrtCount bytes a lb b ok
    else lb = [] ∧ b = a ∧ ok = false

theorem eraseAhead_eq (e : Env) (c : Cxt) (n : Nat) : eraseAhead e c n =
    if Crosses c.imageWrtCount n then erasePartition e (some c.imageIndex) c.partitionHdl
      (aheadOffset c.imageWrtCount) (aheadSize c.imageWrtCount n)
    else pure () := rfl

theorem eraseAhead_run (e : Env) (c : Cxt) (n : Nat) {k : Nat} (hk : c.partitionHdl = some k)
    {s : St} (valid : handleValid s (some k) = true) :
    ∃ r t l ok, eraseAhead e c n s = ⟨r, t, l⟩ ∧ resOf ok r ∧ t.handles = s.handles ∧
      if Crosses c.imageWrtCount n then
        EraseRun e (.image c.imageIndex (s.handles k) (aheadOffset c.imageWrtCount)) (s.handles k)
          (aheadOffset c.imageWrtCount) (aheadSize c.imageWrtCount n) s l t ok
      else l = [] ∧ t = s ∧ ok = true := by
  rw [eraseAhead_eq]
  by_cases cross : Crosses c.imageWrtCount n
  · rw [if_pos cross, hk]
    obtain ⟨r, t, l, ok, run, res, erase, handles⟩ := erasePartition_run e (some c.imageIndex)
      (aheadOffset c.imageWrtCount) (aheadSize c.imageWrtCount n) valid
    refine ⟨r, t, l, ok, run, res, handles, ?_⟩
    rw [if_pos cross]
    exact erase
  · rw [if_neg cross]
    refine ⟨.ok (), s, [], true, rfl, rfl, rfl, ?_⟩
    rw [if_neg cross]
    exact ⟨rfl, rfl, rfl⟩

theorem Wrote.hold {s a b : St} {c : Cxt} {bytes : List UInt8} {client : Client}
    {la lb : List Event} {ready ok : Bool} (h : Wrote e s c bytes client la lb a b ready ok)
    (hs : Nat → Client) (x : Option Cxt) : Wrote e (s.hold hs x) c bytes client la lb
      (a.hold hs x) (b.hold hs x) ready ok := by
  obtain ⟨ahead, write⟩ := h
  constructor
  · split at ahead
    · rename_i cross
      rw [if_pos cross]
      exact ahead.hold hs x
    · rename_i cross
      rw [if_neg cross]
      exact ⟨ahead.1, by rw [ahead.2.1], ahead.2.2⟩
  · split at write
    · rename_i done
      rw [if_pos done]
      exact write.hold hs x
    · rename_i done
      rw [if_neg done]
      exact ⟨write.1, by rw [write.2.1], write.2.2⟩

/-- Writing to a partition the session holds. -/
theorem writeBytes_run (e : Env) (c : Cxt) (bytes : List UInt8) (addr : Nat) {k : Nat}
    (hk : c.partitionHdl = some k) {s : St} (valid : handleValid s (some k) = true) :
    ∃ r a b la lb ready ok, ((do
        (eraseAhead e c bytes.length).orFail .flashErasePartition
        (writePartition e (some c.imageIndex) c.partitionHdl c.imageWrtCount bytes addr).orFail
          .flashWritePartition : M Unit)) s = ⟨r, b, la ++ lb⟩ ∧ resOf ok r ∧
      b.handles = s.handles ∧ Wrote e s c bytes (s.handles k) la lb a b ready ok := by
  obtain ⟨r, a, la, ready, run, res, handles, ahead⟩ := eraseAhead_run e c bytes.length hk valid
  rw [Act.bind_run]
  cases r with
  | error err =>
    cases (show ready = false from res)
    rw [Act.orFail_error run, Act.andThen_error]
    refine ⟨.error .flashErasePartition, a, a, la, [], false, false, ?_, rfl, handles, ahead, ?_⟩
    · rw [List.append_nil]
    · exact ⟨rfl, rfl, rfl⟩
  | ok _ =>
    cases (show ready = true from res)
    have valid' : handleValid a (some k) = true := by
      unfold handleValid at valid ⊢
      rw [handles]
      exact valid
    obtain ⟨r, b, lb, ok, run', res', write, handles'⟩ := writePartition_run e
      (some c.imageIndex) c.imageWrtCount bytes addr valid'
    rw [handles] at write
    rw [hk, Act.orFail_ok run, Act.andThen_ok]
    cases r with
    | error err =>
      rw [Act.orFail_error run']
      exact ⟨_, a, b, la, lb, true, ok, rfl, res', handles'.trans handles, ahead, write⟩
    | ok _ =>
      rw [Act.orFail_ok run']
      exact ⟨_, a, b, la, lb, true, ok, rfl, res', handles'.trans handles, ahead, write⟩

/-- Without a partition nothing is written. -/
theorem writeBytes_none (e : Env) {c : Cxt} (hk : c.partitionHdl = none) (bytes : List UInt8)
    (n addr : Nat) (s : St) : ∃ err, ((do
        (eraseAhead e c n).orFail .flashErasePartition
        (writePartition e (some c.imageIndex) c.partitionHdl c.imageWrtCount bytes addr).orFail
          .flashWritePartition : M Unit)) s = ⟨.error err, s, []⟩ := by
  rw [eraseAhead_eq, hk]
  split
  · exact ⟨_, rfl⟩
  · exact ⟨_, rfl⟩

theorem Wrote.touches {s a b : St} {c : Cxt} {bytes : List UInt8} {client : Client}
    {la lb : List Event} {ready ok : Bool} (h : Wrote e s c bytes client la lb a b ready ok) :
    Touches e (fun _ _ _ => True) s (la ++ lb) b := by
  obtain ⟨ahead, write⟩ := h
  have first : Touches e (fun _ _ _ => True) s la a := by
    split at ahead
    · exact ahead.touches.mono fun _ _ _ _ => trivial
    · obtain ⟨rfl, rfl, -⟩ := ahead
      exact .refl _
  apply first.trans
  split at write
  · exact write.touches.mono fun _ _ _ _ => trivial
  · obtain ⟨rfl, rfl, -⟩ := write
    exact .refl _

theorem hold_eq {b : St} {hs : Nat → Client} {x : Option Cxt} (handles : b.handles = hs)
    (cxt : b.cxt = x) : b.hold hs x = b := by
  rw [← handles, ← cxt]
  rfl

theorem partition_held {s : St} {c : Cxt} {k : Nat} (hc : s.cxt = some c)
    (hk : c.partitionHdl = some k) : s.partition = some (s.handles k) := by
  unfold St.partition
  simp only [hc, hk, Option.bind_eq_bind, Option.bind_some, Option.pure_def]

/-- A partial upgrade reads each packet from its start. -/
theorem rewind_run {s : St} {c : Cxt} (hc : s.cxt = some c) :
    Act.when (c.format = formatPartial) (updateCxt fun c => { c with bufOffset := 0 }) s =
      ⟨.ok (), s.withCxt { c with bufOffset := c.source }, []⟩ := by
  unfold Cxt.source
  by_cases format : c.format = formatPartial
  · rw [Act.when_pos format, updateCxt_run hc, if_pos format]
  · rw [Act.when_neg format, if_neg format]
    exact congrArg (Out.mk (.ok ()) · []) (withCxt_self hc).symm

theorem writeImageData_eq (e : Env) (p : Packet) : writeImageData e p = (do
    let c ← getCxt
    Act.when (c.format = formatPartial) (updateCxt fun c => { c with bufOffset := 0 })
    if c.format = formatPartial ∧ c.imageWrtLength - c.imageWrtCount < c.bufLen then
      Act.fail .incorrectImageLength
    else
      Act.emit (.note (.packet c.source c.writeLen))
      digestUpdate (load p.data c.source c.writeLen)
      (eraseAhead e c c.writeLen).orFail .flashErasePartition
      (writePartition e (some c.imageIndex) c.partitionHdl c.imageWrtCount
        (load p.data c.source c.writeLen) (p.addr + c.source)).orFail .flashWritePartition
      updateCxt fun x => { x with
        bufOffset := c.source + c.writeLen
        imageWrtCount := x.imageWrtCount + c.writeLen }) := rfl

variable (e retry) in
theorem writeImageData_cases (p : Packet) {s : St} {c : Cxt} {img : ImageHdr} (w : Writing s c img)
    (h : List Event) :
    (∃ err t l, writeImageData e p s = ⟨.error err, t, l⟩ ∧ Stopped e retry s h t l) ∨
    ∃ k bytes a b la lb n m, c.partitionHdl = some k ∧ bytes ≠ [] ∧
      c.imageWrtCount + bytes.length ≤ c.imageWrtLength ∧ b.hold s.handles s.cxt = b ∧
      writeImageData e p s = ⟨.ok (), b.hold s.handles (some (c.wrote bytes)),
        .note (.packet n m) :: (la ++ lb)⟩ ∧
      Wrote e s c bytes (s.handles k) la lb a b true true := by
  have state := w.current.state
  have hc := w.cxt
  rw [writeImageData_eq]
  simp only [Act.bind_run, getCxt_run hc, Act.andThen_ok, rewind_run hc, List.nil_append,
    Act.ite_run]
  split
  · left
    refine ⟨_, _, [], rfl, ?_, _, rfl, ?_, state⟩
    · rw [List.append_nil]
      exact moves_tune hc rfl (.refl c)
    · exact w.ctl.imaging state ⟨rfl⟩ w.ctl.init rfl w.ctl.held
        (w.ctl.count (w.ctl.image state).1)
  · rename_i fits
    have room : c.partitionHdl ≠ none → 0 < c.writeLen ∧
        c.imageWrtCount + c.writeLen ≤ c.imageWrtLength := by
      intro held
      have pos := (w.ctl.image state).2
      have count := w.ctl.count (w.ctl.image state).1 held
      unfold Cxt.writeLen Cxt.source
      by_cases format : c.format = formatPartial
      · simp only [format, true_and, if_true] at fits ⊢
        omega
      · have := w.room format
        simp only [format, if_false]
        omega
    have len : (load p.data c.source c.writeLen).length = c.writeLen := length_load _ _ _
    generalize load p.data c.source c.writeLen = bytes at len
    have taken : Ctl (s.withCxt (c.taken bytes)) (c.taken bytes) :=
      w.ctl.imaging state ⟨rfl⟩ w.ctl.init rfl w.ctl.held (w.ctl.count (w.ctl.image state).1)
    have note : Move e retry (s, h) (s, h ++ [.note (.packet c.source c.writeLen)]) := .note _
    have start : digestUpdate bytes (s.withCxt { c with bufOffset := c.source }) =
        ⟨.ok (), s.withCxt (c.taken bytes), []⟩ := updateCxt_run (withCxt_cxt _ _) _
    simp only [Act.bind_run (digestUpdate _), Act.emit_run, Act.andThen_ok, start, List.nil_append]
    rw [← Act.bind_assoc]
    cases hk : c.partitionHdl with
    | none =>
      left
      rw [← hk]
      obtain ⟨err, run⟩ := writeBytes_none e hk bytes c.writeLen (p.addr + c.source)
        (s.withCxt (c.taken bytes))
      rw [Act.bind_run, run]
      refine ⟨err, _, _, rfl, ?_, _, rfl, taken, state⟩
      exact .tail (.single note) (.lost _ hc state hk)
    | some k =>
      rw [← hk, ← len]
      obtain ⟨r, a, b, la, lb, ready, ok, run, res, handles, wrote⟩ := writeBytes_run e c bytes
        (p.addr + c.source) hk (valid_held taken hk)
      rw [Act.bind_run, run]
      have cxt : b.cxt = some (c.taken bytes) := wrote.touches.cxt
      have imageHdr : b.imageHdr = s.imageHdr := wrote.touches.imageHdr
      have left : (b.hold s.handles s.cxt).withCxt (c.taken bytes) = b := hold_eq handles cxt
      have wrote' : Wrote e s c bytes (s.handles k) la lb (a.hold s.handles s.cxt)
        (b.hold s.handles s.cxt) ready ok := wrote.hold s.handles s.cxt
      obtain ⟨pos, fit⟩ := room (by rw [hk]; rintro ⟨⟩)
      have part : s.partition = some (s.handles k) := partition_held hc hk
      rw [← len] at note pos fit
      cases r with
      | error err =>
        left
        cases (show ok = false from res)
        refine ⟨err, b, _, rfl, ?_, _, cxt, taken.touches rfl wrote.touches, state⟩
        have step : Move e retry (s, h ++ [.note (.packet c.source bytes.length)]) _ :=
          .spoil c.source hc w.current part fit wrote'.ahead (by
            have write := wrote'.write
            split at write
            · rename_i done
              rw [if_pos done]
              exact write
            · rename_i done
              rw [if_neg done]
              exact ⟨write.1, write.2.1⟩)
        have same : { b.hold s.handles s.cxt with cxt := some { c with
            bufOffset := c.source, digest := c.digest.update bytes } } = b := left
        rw [same, List.append_assoc, List.append_assoc] at step
        exact .tail (.single note) step
      | ok _ =>
        right
        cases (show ok = true from res)
        have done : ready = true := by
          have write := wrote'.write
          split at write
          · assumption
          · cases write.2.2
        subst done
        refine ⟨k, bytes, _, b.hold s.handles s.cxt, la, lb, c.source, bytes.length, hk,
          List.ne_nil_of_length_pos pos, fit, rfl, ?_, wrote'⟩
        · simp only [Act.andThen_ok, updateCxt_run cxt, List.append_nil]
          have same : b.withCxt { c.taken bytes with
              bufOffset := c.source + bytes.length
              imageWrtCount := (c.taken bytes).imageWrtCount + bytes.length } =
              (b.hold s.handles s.cxt).hold s.handles (some (c.wrote bytes)) := by
            rw [← show b.handles = s.handles from handles]
            rfl
          rw [same]
          rfl

/-! ## Verifying -/

theorem Digest.update_nil (d : Digest) : d.update [] = d := by
  unfold Digest.update
  rw [List.append_nil]

/-- The session with another digest. -/
def Cxt.hashing (c : Cxt) (d : Digest) : Cxt := { c with digest := d }

theorem padHash_cases (img : ImageHdr) {s : St} {c : Cxt} (hc : s.cxt = some c) :
    (∃ err t l, padHash img s = ⟨.error err, t, l⟩ ∧ Quiet s t ∧ ∀ w ∈ l, ∃ n, w = .note n) ∨
    ∃ t l, padHash img s =
        ⟨.ok (), t.withCxt (c.hashing (c.digest.update (hashPadding c.format img))), l⟩ ∧
      Quiet s t ∧ ∀ w ∈ l, ∃ n, w = .note n := by
  unfold padHash hashPadding
  generalize (img.diskSize + 2 ^ 32 - img.imageLength) % 2 ^ 32 = pad
  simp only [Act.bind_run, getCxt_run hc, Act.andThen_ok, List.nil_append, Act.ite_run]
  by_cases some : c.format = formatPartial ∧ 0 < pad
  · obtain ⟨ok, t, run, eq, -⟩ := malloc_run .hashBuf s
    have quiet : Quiet s t := by
      rw [eq]
      exact quiet_oom s _
    have hct := quiet.cxt.trans hc
    simp only [if_pos some, if_pos some.1, run, Act.andThen_ok]
    cases ok with
    | false =>
      refine .inl ⟨_, t, _, rfl, quiet, fun w hw => ⟨.denied .hashBuf, ?_⟩⟩
      exact List.mem_singleton.mp hw
    | true =>
      simp only [digestUpdate, if_true, Act.bind_run, updateCxt_run hct, Act.andThen_ok, free,
        Act.emit_run]
      refine .inr ⟨t, _, rfl, quiet, fun w hw => ?_⟩
      rcases List.mem_cons.mp hw with rfl | hw
      · exact ⟨_, rfl⟩
      · exact ⟨.free .hashBuf, List.mem_singleton.mp hw⟩
  · rw [if_neg some]
    refine .inr ⟨s, [], ?_, .refl s, by simp⟩
    have nil : (if c.format = formatPartial then List.replicate pad (0xFF : UInt8) else []) = [] := by
      split
      · rename_i format
        have : pad = 0 := by
          by_contra hn
          exact some ⟨format, Nat.pos_of_ne_zero hn⟩
        rw [this, List.replicate_zero]
      · rfl
    rw [nil, Digest.update_nil]
    exact congrArg (Out.mk (.ok ()) · []) (withCxt_self hc).symm

theorem digestFinish_run (e : Env) {s : St} {c : Cxt} (hc : s.cxt = some c) : digestFinish e s =
    ⟨.ok (c.digest.finish e), s.withCxt (c.hashing { c.digest with finished := true }), []⟩ := by
  unfold digestFinish
  simp only [Act.bind_run, getCxt_run hc, updateCxt_run hc, Act.andThen_ok, Act.pure_run,
    List.nil_append]
  rfl

/-- The digest an image is verified with, when it is finished. -/
def Cxt.verified (c : Cxt) (img : ImageHdr) : Cxt :=
  c.hashing { c.digest.update (hashPadding c.format img) with finished := true }

theorem verifyImageHash_cases (e : Env) (img : ImageHdr) {s : St} {c : Cxt} (hc : s.cxt = some c) :
    (∃ err t d l, verifyImageHash e img s = ⟨.error err, t.withCxt (c.hashing d), l⟩ ∧ Quiet s t ∧
      ∀ w ∈ l, (∃ n, w = .note n) ∨ w = .hashed (some c.imageIndex)
        (c.digest.update (hashPadding c.format img)).bytes false) ∨
    ∃ t l, verifyImageHash e img s = ⟨.ok (), t.withCxt (c.verified img), l ++
        [.hashed (some c.imageIndex) (c.digest.update (hashPadding c.format img)).bytes true]⟩ ∧
      Quiet s t ∧ (∀ w ∈ l, ∃ n, w = .note n) ∧
      img.hash = (c.digest.update (hashPadding c.format img)).finish e := by
  unfold verifyImageHash
  simp only [Act.bind_run, getCxt_run hc, Act.andThen_ok, List.nil_append]
  rcases padHash_cases img hc with ⟨err, t, l, run, quiet, notes⟩ | ⟨t, l, run, quiet, notes⟩
  · refine .inl ⟨err, t, c.digest, l, ?_, quiet, fun w hw => .inl (notes w hw)⟩
    rw [run, Act.andThen_error]
    exact congrArg (Out.mk (.error err) · l) (withCxt_self (quiet.cxt.trans hc)).symm
  · unfold Cxt.verified
    generalize c.digest.update (hashPadding c.format img) = d at run ⊢
    have hct : (t.withCxt (c.hashing d)).cxt = some (c.hashing d) := rfl
    simp only [run, Act.andThen_ok, Act.bind_run, getCxt_run hct, digestFinish_run e hct,
      Act.emit_run, Act.ite_run, List.nil_append]
    by_cases equal : img.hash = d.finish e
    · right
      refine ⟨t, l, ?_, quiet, notes, equal⟩
      have same : (img.hash == Digest.finish e (c.hashing d).digest) = true := beq_iff_eq.mpr equal
      simp only [same, if_true, Act.pure_run, List.append_nil]
      rfl
    · left
      have same : (img.hash == Digest.finish e (c.hashing d).digest) = false :=
        beq_eq_false_iff_ne.mpr equal
      refine ⟨.incorrectImageChecksum, t, { d with finished := true }, l ++ [.hashed
        (some c.imageIndex) d.bytes false], ?_, quiet, fun w hw => ?_⟩
      · simp only [same, Bool.false_eq_true, if_false, Act.fail_run, List.append_nil]
        rfl
      · rcases List.mem_append.mp hw with hw | hw
        · exact .inl (notes w hw)
        · exact .inr (List.mem_singleton.mp hw)

/-! ## After an image -/

/-- The session once it leaves image `img`. -/
def Cxt.next (c : Cxt) (img : ImageHdr) : Cxt :=
  { c with
    partitionHdl := none
    trialMemStart := c.advanced img
    imageIndex := c.imageIndex + 1
    imageWrtLength := 0 }

theorem nextImage_run (img : ImageHdr) {s : St} {c : Cxt} (hc : s.cxt = some c) :
    nextImage img s = ⟨.ok (),
      s.hold (freed c.partitionHdl s.handles) (some (c.next img)), []⟩ := by
  unfold nextImage
  rw [Act.bind_run, releasePartition_run hc, Act.andThen_ok, updateCxt_run rfl]
  rfl

/-- Where the session goes after an image. -/
inductive Follows (c : Cxt) : FwState → Prop
  | more (format : c.format ≠ formatPartial) (lt : c.imageIndex < c.totalImages) :
      Follows c .processImage
  | last (format : c.format ≠ formatPartial) (le : c.totalImages ≤ c.imageIndex) :
      Follows c .duplicateFs
  | one (format : c.format = formatPartial) : Follows c .disconnectServer

/-- An image is complete, and the next state is not set yet. -/
structure Between (s : St) (c : Cxt) : Prop where
  cxt : s.cxt = some c
  state : c.fwUpgradeState = .processImage
  first : c.isFirst = false
  ctl : ∀ x, Follows c x → Ctl (s.withCxt { c with fwUpgradeState := x })
    { c with fwUpgradeState := x }

theorem Between.of_next {s t : St} {c c' : Cxt} {img : ImageHdr} (ctl : Ctl s c)
    (state : c.fwUpgradeState = .processImage) (same : SameBut c c')
    (init : t.fuInitialized = true) (imageHdr : t.imageHdr = s.imageHdr)
    (cxt : t.cxt = some (c'.next img)) : Between t (c'.next img) := by
  have same := same.eq
  generalize c'.bufOffset = bufOffset at same
  generalize c'.digest = digest at same
  generalize c'.partitionHdl = hdl at same
  generalize c'.imageWrtLength = len at same
  generalize c'.imageWrtCount = cnt at same
  subst same
  have first := (ctl.image state).1
  have none {α : Prop} : c.isFirst = true → α := fun h => by rw [first] at h; cases h
  have dup : c.duplicateIndex = 0 := ctl.dup (by rw [state]; rfl)
  refine ⟨cxt, state, first, fun x follows => ?_⟩
  have trial : c.trialFwdIdx < maxFwd := ctl.trial (.inr (by rw [state]; rfl))
  have accepted : ∃ hdrs, t.imageHdr = some hdrs ∧ hdrs.length = c.totalImages := by
    rw [imageHdr]
    exact ctl.accepted first
  cases follows with
  | more format lt =>
    have full := ctl.full format first
    exact ⟨init, by rintro k ⟨⟩, by rintro ⟨⟩, none, fun _ _ => rfl, fun _ => accepted,
      fun _ => ctl.image state, by rintro ⟨⟩, fun _ _ => ⟨lt, full.1 _⟩, fun _ _ => ⟨full.1, rfl⟩,
      fun _ h => absurd rfl h, by rintro ⟨⟩, fun _ => dup, fun _ => trial, ctl.config⟩
  | last format le =>
    exact ⟨init, by rintro k ⟨⟩, by rintro ⟨⟩, none, fun _ _ => rfl, fun _ => accepted,
      by rintro ⟨⟩, by rintro ⟨⟩, by rintro _ ⟨⟩, fun _ _ => ⟨(ctl.full format first).1, rfl⟩,
      fun _ h => absurd rfl h, fun _ => ⟨first, le⟩, fun _ => dup, fun _ => trial, ctl.config⟩
  | one format =>
    exact ⟨init, by rintro k ⟨⟩, by rintro ⟨⟩, none, fun _ _ => rfl, fun _ => accepted,
      by rintro ⟨⟩, fun _ => first, by rintro _ ⟨⟩, fun h => absurd format h,
      fun _ h => absurd rfl h, by rintro ⟨⟩, fun _ => dup, fun _ => trial, ctl.config⟩

/-- What an action leaves that receives an image. -/
def AfterData (s : St) (l : List Event) : Prop :=
  In .processImage s l ∨ In .disconnectServer s l ∨ In .duplicateFs s l

variable (e retry) in
theorem Between.go {s : St} {c : Cxt} {x : FwState} (b : Between s c) (follows : Follows c x)
    (h : List Event) : setState x s = ⟨.ok (), s.withCxt { c with fwUpgradeState := x }, []⟩ ∧
      Moves e retry (s, h) (s.withCxt { c with fwUpgradeState := x }, h) ∧
      In x (s.withCxt { c with fwUpgradeState := x }) h := by
  refine ⟨updateCxt_run b.cxt _, ?_, _, rfl, b.ctl x follows, rfl⟩
  apply moves_tune b.cxt rfl
  have state := b.state
  cases follows with
  | more format lt => exact ⟨by rw [state], by rintro ⟨⟩, by rintro ⟨⟩, fun _ _ h => by simp at h,
    Nat.le_trans (Nat.le_of_eq (congrArg FwState.phase state)) (Nat.zero_le _)⟩
  | last format le =>
    exact ⟨by rw [state]; rfl, by rintro ⟨⟩, fun _ => .inr ⟨b.first, le⟩, fun _ _ h => by simp at h,
      Nat.le_trans (Nat.le_of_eq (congrArg FwState.phase state)) (Nat.zero_le _)⟩
  | one format =>
    exact ⟨by rw [state]; rfl, by rintro ⟨⟩, by rintro ⟨⟩, fun _ h => absurd format h,
      Nat.le_trans (Nat.le_of_eq (congrArg FwState.phase state)) (Nat.zero_le _)⟩

/-! ## One pass over the data -/

/-- The erase of the block the next write starts in. -/
def NextErase (e : Env) (c : Cxt) (bytes : List UInt8) (client : Client) (b : St)
    (ln : List Event) (n : St) (ready : Bool) : Prop :=
  if (c.imageWrtCount + bytes.length) % blockSize = 0 ∧
      c.imageWrtCount + bytes.length < c.imageWrtLength then
    EraseRun e (.image c.imageIndex client (c.imageWrtCount + bytes.length)) client
      (c.imageWrtCount + bytes.length) blockSize b ln n ready
  else ln = [] ∧ n = b

theorem Writing.chunk {s a b n : St} {c : Cxt} {img : ImageHdr} {k : Nat} {bytes : List UInt8}
    {la lb ln : List Event} {ready : Bool} (w : Writing s c img) (hk : c.partitionHdl = some k)
    (ne : bytes ≠ []) (fit : c.imageWrtCount + bytes.length ≤ c.imageWrtLength)
    (wrote : Wrote e s c bytes (s.handles k) la lb a b true true)
    (next : NextErase e c bytes (s.handles k) b ln n ready) (handles : n.handles = s.handles)
    (h : List Event) : Move e retry (s, h)
      (n.hold s.handles (some (c.wrote bytes)), h ++ la ++ lb ++ ln) := by
  have ahead : if Crosses c.imageWrtCount bytes.length then
      EraseRun e (.image c.imageIndex (s.handles k) (aheadOffset c.imageWrtCount)) (s.handles k)
        (aheadOffset c.imageWrtCount) (aheadSize c.imageWrtCount bytes.length) s la a true
      else la = [] ∧ a = s := by
    have ahead := wrote.ahead
    split at ahead
    · rename_i cross
      rw [if_pos cross]
      exact ahead
    · rename_i cross
      rw [if_neg cross]
      exact ⟨ahead.1, ahead.2.1⟩
  have step : Move e retry (s, h) _ := .chunk (c.source + bytes.length) w.cxt w.current
    (partition_held w.cxt hk) ne fit ahead wrote.write next
  rw [← handles]
  exact step

/-- All of image `img` is written. -/
structure Full (s : St) (c : Cxt) (img : ImageHdr) : Prop where
  cxt : s.cxt = some c
  ctl : Ctl s c.loosed
  current : Current s c img
  held : c.partitionHdl ≠ none
  pos : 0 < c.imageWrtLength
  full : c.imageWrtLength ≤ c.imageWrtCount

/-- An image that fails its verification is given up. -/
theorem Full.giveUp {s t : St} {c : Cxt} {img : ImageHdr} {l : List Event} (f : Full s c img)
    (quiet : Quiet s t) (events : ∀ w ∈ l, (∃ n, w = .note n) ∨ ∃ i b, w = .hashed (some i) b false)
    (hs : Nat → Client) (d : Digest) (h : List Event) :
    Stopped e retry s h (t.hold hs (some (c.loosed.hashing d))) l := by
  have state := f.current.state
  have step : Move e retry (s, h) _ := .giveUp (d := d) hs f.cxt state events quiet
  refine ⟨.single step, _, rfl, ?_, state⟩
  exact f.ctl.imaging state ⟨rfl⟩ (quiet.init f.ctl.init).1 quiet.imageHdr (by rintro k ⟨⟩)
    (absurd rfl)

variable (retry) in
/-- What `finishImage` does with an image that is completely written. -/
theorem finishImage_cases (e : Env) {s : St} {c : Cxt} {img : ImageHdr} (f : Full s c img)
    (h : List Event) :
    (∃ err t l, finishImage e img s = ⟨.error err, t, l⟩ ∧ Stopped e retry s h t l) ∨
    ∃ last t l x, finishImage e img s = ⟨.ok last, t, l⟩ ∧ Moves e retry (s, h) (t, h ++ l) ∧
      In x t (h ++ l) ∧ (∀ d, t.cxt = some d → d.imageWrtLength = 0) ∧
      (last = true ∧ x = .duplicateFs ∨ last = false ∧ c.format = formatPartial ∧
        x = .disconnectServer ∨ last = false ∧ c.format ≠ formatPartial ∧ x = .processImage) := by
  unfold finishImage
  rw [Act.bind_run]
  rcases verifyImageHash_cases e img f.cxt with ⟨err, t, d, l, run, quiet, events⟩ |
    ⟨t, l, run, quiet, notes, hash⟩
  · left
    rw [Act.cleanUp_error run (releasePartition_run (withCxt_cxt t _)), Act.andThen_error,
      List.append_nil]
    have given : ∀ w ∈ l, (∃ n, w = .note n) ∨ ∃ i b, w = .hashed (some i) b false :=
      fun w mem => (events w mem).imp_right fun eq => ⟨_, _, eq⟩
    exact ⟨err, _, l, rfl, f.giveUp quiet given (freed c.partitionHdl t.handles) d h⟩
  · right
    obtain ⟨k, hk⟩ := Option.ne_none_iff_exists'.mp f.held
    have step : Move e retry (s, h) _ := .complete (freed c.partitionHdl t.handles) f.cxt f.current
      (partition_held f.cxt hk) f.pos f.full notes quiet hash
    have between : Between (t.hold (freed c.partitionHdl t.handles)
        (some ((c.verified img).next img))) ((c.verified img).next img) :=
      .of_next f.ctl f.current.state ⟨rfl⟩ (quiet.init f.ctl.init).1 quiet.imageHdr rfl
    rw [Act.cleanUp_ok run, Act.andThen_ok, Act.bind_run, nextImage_run img (withCxt_cxt t _),
      Act.andThen_ok, Act.bind_run]
    change Move e retry (s, h) (t.hold _ (some ((c.verified img).next img)), _) at step
    have left : ((t.withCxt (c.verified img)).hold (freed (c.verified img).partitionHdl
        (t.withCxt (c.verified img)).handles) (some ((c.verified img).next img))) =
        t.hold (freed c.partitionHdl t.handles) (some ((c.verified img).next img)) := rfl
    rw [left]
    generalize t.hold (freed c.partitionHdl t.handles) (some ((c.verified img).next img)) = u
      at step between
    generalize hd : (c.verified img).next img = d at between
    have format : d.format = c.format := by rw [← hd]; rfl
    have len : d.imageWrtLength = 0 := by rw [← hd]; rfl
    rw [List.append_assoc] at step
    have hu := between.cxt
    simp only [getCxt_run hu, Act.andThen_ok, List.nil_append, Act.ite_run, format, Act.bind_run]
    generalize l ++ [.hashed (some c.imageIndex)
      (c.digest.update (hashPadding c.format img)).bytes true] = tr at step ⊢
    have after {x : FwState} (follows : Follows d x) := between.go e retry
      follows (h ++ tr)
    by_cases part : c.format = formatPartial
    · obtain ⟨run, moves, inside⟩ := after (.one (format.trans part))
      simp only [if_pos part, run, Act.andThen_ok, Act.pure_run, List.append_nil]
      refine ⟨false, _, tr, .disconnectServer, rfl, .head step moves, inside, ?_,
        .inr (.inl ⟨rfl, part, rfl⟩)⟩
      rintro _ ⟨⟩
      exact len
    · by_cases le : d.totalImages ≤ d.imageIndex
      · obtain ⟨run, moves, inside⟩ := after (.last (format ▸ part) le)
        simp only [if_neg part, if_pos le, run, Act.andThen_ok, Act.pure_run, List.append_nil]
        refine ⟨true, _, tr, .duplicateFs, rfl, .head step moves, inside, ?_, .inl ⟨rfl, rfl⟩⟩
        rintro _ ⟨⟩
        exact len
      · obtain ⟨-, moves, inside⟩ := after (.more (format ▸ part) (Nat.not_le.mp le))
        simp only [if_neg part, if_neg le, Act.pure_run, List.append_nil]
        have same : u.withCxt { d with fwUpgradeState := .processImage } = u := by
          rw [← between.state]
          exact withCxt_self hu
        rw [same] at inside
        refine ⟨false, u, tr, .processImage, rfl, .single step, inside, ?_,
          .inr (.inr ⟨rfl, part, rfl⟩)⟩
        intro d' hd'
        cases hu.symm.trans hd'
        exact len

theorem eraseNext_none (e : Env) {s : St} {c : Cxt} (hc : s.cxt = some c)
    (len : c.imageWrtLength = 0) : eraseNext e s = ⟨.ok (), s, []⟩ := by
  unfold eraseNext
  simp only [Act.bind_run, getCxt_run hc, Act.andThen_ok, len, Nat.lt_irrefl, and_false, if_false,
    Act.pure_run, List.nil_append]

theorem eraseNext_run (e : Env) {s : St} {c : Cxt} (hc : s.cxt = some c) {k : Nat}
    (hk : c.partitionHdl = some k) (valid : handleValid s (some k) = true) :
    ∃ r t l ok, eraseNext e s = ⟨r, t, l⟩ ∧ resOf ok r ∧ t.handles = s.handles ∧
      if c.imageWrtCount % blockSize = 0 ∧ 0 < c.imageWrtLength then
        EraseRun e (.image c.imageIndex (s.handles k) c.imageWrtCount) (s.handles k)
          c.imageWrtCount blockSize s l t ok
      else l = [] ∧ t = s ∧ ok = true := by
  unfold eraseNext
  simp only [Act.bind_run, getCxt_run hc, Act.andThen_ok, List.nil_append, hk]
  by_cases aligned : c.imageWrtCount % blockSize = 0 ∧ 0 < c.imageWrtLength
  · obtain ⟨r, t, l, ok, run, res, erase, handles⟩ := erasePartition_run e (some c.imageIndex)
      c.imageWrtCount blockSize valid
    simp only [if_pos aligned, run]
    exact ⟨r, t, l, ok, rfl, res, handles, erase⟩
  · simp only [if_neg aligned]
    exact ⟨.ok (), s, [], true, rfl, rfl, rfl, rfl, rfl, rfl⟩

variable (e retry) in
/-- A write that leaves the image incomplete, and the erase after it. -/
theorem Writing.partly {s a b : St} {c : Cxt} {img : ImageHdr} {k : Nat} {bytes : List UInt8}
    {la lb : List Event} (w : Writing s c img) (hk : c.partitionHdl = some k)
    (ne : bytes ≠ []) (lt : c.imageWrtCount + bytes.length < c.imageWrtLength)
    (same : b.hold s.handles s.cxt = b)
    (wrote : Wrote e s c bytes (s.handles k) la lb a b true true) (h : List Event) :
    ∃ r t l, (eraseNext e).orFail .flashErasePartition (b.hold s.handles (some (c.wrote bytes))) =
        ⟨r, t, l⟩ ∧ Moves e retry (s, h) (t, h ++ (la ++ lb ++ l)) ∧
      In .processImage t (h ++ (la ++ lb ++ l)) := by
  have state := w.current.state
  have ctl : Ctl (b.hold s.handles (some (c.wrote bytes))) (c.wrote bytes) :=
    w.ctl.imaging state ⟨rfl⟩ (wrote.touches.init w.ctl.init).1 wrote.touches.imageHdr w.ctl.held
      fun _ => .inr lt
  obtain ⟨r, t, l, ok, run, res, handles, erase⟩ := eraseNext_run e (c := c.wrote bytes) rfl hk
    (valid_held ctl hk)
  have next : NextErase e c bytes (s.handles k) b l (t.hold s.handles s.cxt) ok := by
    unfold NextErase
    have pos : 0 < c.imageWrtLength := Nat.lt_of_le_of_lt (Nat.zero_le _) lt
    by_cases aligned : (c.imageWrtCount + bytes.length) % blockSize = 0
    · rw [if_pos ⟨aligned, lt⟩]
      rw [if_pos ⟨aligned, pos⟩] at erase
      have erase := erase.hold s.handles s.cxt
      rw [show (b.hold s.handles (some (c.wrote bytes))).hold s.handles s.cxt = b from same] at erase
      exact erase
    · rw [if_neg fun h => aligned h.1]
      rw [if_neg fun h => aligned h.1] at erase
      exact ⟨erase.1, by rw [erase.2.1]; exact same⟩
  have touches : Touches e (fun _ _ _ => True) (b.hold s.handles (some (c.wrote bytes))) l t := by
    split at erase
    · exact erase.touches.mono fun _ _ _ _ => trivial
    · obtain ⟨rfl, rfl, -⟩ := erase
      exact .refl _
  have cxt : t.cxt = some (c.wrote bytes) := touches.cxt
  have step : Move e retry (s, h) _ := w.chunk hk ne (Nat.le_of_lt lt) wrote next rfl h
  have left : (t.hold s.handles s.cxt).hold s.handles (some (c.wrote bytes)) = t :=
    hold_eq handles cxt
  rw [left, List.append_assoc, List.append_assoc, ← List.append_assoc la] at step
  have inside : In .processImage t (h ++ (la ++ lb ++ l)) := ⟨_, cxt, ctl.touches rfl touches, state⟩
  cases r with
  | error err => exact ⟨_, t, l, Act.orFail_error run _, .single step, inside⟩
  | ok _ => exact ⟨_, t, l, Act.orFail_ok run _, .single step, inside⟩

variable (e retry) in
/-- A write that completes the image. -/
theorem Writing.fully {s a b : St} {c : Cxt} {img : ImageHdr} {k : Nat} {bytes : List UInt8}
    {la lb : List Event} (w : Writing s c img) (hk : c.partitionHdl = some k)
    (ne : bytes ≠ []) (eq : c.imageWrtCount + bytes.length = c.imageWrtLength)
    (wrote : Wrote e s c bytes (s.handles k) la lb a b true true) (handles : b.handles = s.handles)
    (h : List Event) :
    Move e retry (s, h) (b.hold s.handles (some (c.wrote bytes)), h ++ (la ++ lb)) ∧
      Full (b.hold s.handles (some (c.wrote bytes))) (c.wrote bytes) img := by
  have state := w.current.state
  constructor
  · have next : NextErase e c bytes (s.handles k) b [] b true := by
      unfold NextErase
      rw [if_neg fun h => Nat.lt_irrefl _ (eq ▸ h.2)]
      exact ⟨rfl, rfl⟩
    have step : Move e retry (s, h) _ := w.chunk hk ne (Nat.le_of_eq eq) wrote next handles h
    rw [List.append_nil, List.append_assoc] at step
    exact step
  · constructor
    · rfl
    · exact w.ctl.imaging state ⟨rfl⟩ (wrote.touches.init w.ctl.init).1 wrote.touches.imageHdr
        (by rintro k ⟨⟩) (absurd rfl)
    · exact w.current.congr ⟨rfl⟩ wrote.touches.imageHdr
    · change c.partitionHdl ≠ none
      rw [hk]
      rintro ⟨⟩
    · have pos := List.length_pos_iff.mpr ne
      change 0 < c.imageWrtLength
      omega
    · exact Nat.le_of_eq eq.symm

/-- The part of a pass that needs a partition. -/
def writePass (e : Env) (p : Packet) (img : ImageHdr) (format : Nat) (next : M Unit) : M Unit := do
  writeImageData e p
  let last ← finishIfComplete e img
  if last then pure ()
  else
    (eraseNext e).orFail .flashErasePartition
    if format = formatPartial then pure () else next

theorem writePass_moves (p : Packet) (img : ImageHdr) (format : Nat) {next : M Unit}
    (rest : Sound (Move e retry) (In .processImage) next fun _ => AfterData) :
    Sound (Move e retry) (fun s _ => ∃ c, Writing s c img ∧ c.format = format)
      (writePass e p img format next) fun _ => AfterData := by
  rintro s h ⟨c, w, rfl⟩
  unfold writePass
  rw [Act.bind_run]
  rcases writeImageData_cases e retry p w h with ⟨err, t, l, run, moves, inside⟩ |
    ⟨k, bytes, a, b, la, lb, n, m, hk, ne, fit, same, run, wrote⟩
  · rw [run]
    exact ⟨moves, .inl inside⟩
  · rw [run, Act.andThen_ok]
    have note : Move e retry (s, h) (s, h ++ [.note (.packet n m)]) := .note _
    generalize hu : b.hold s.handles (some (c.wrote bytes)) = u
    have huc : u.cxt = some (c.wrote bytes) := by rw [← hu]; rfl
    simp only [finishIfComplete, Act.bind_run, getCxt_run huc, Act.andThen_ok, Act.ite_run,
      List.nil_append]
    rw [← List.singleton_append, ← List.append_assoc h]
    by_cases full : (c.wrote bytes).imageWrtLength ≤ (c.wrote bytes).imageWrtCount
    · obtain ⟨step, f⟩ := w.fully e retry hk ne (Nat.le_antisymm fit full) wrote
        (by rw [← same]; rfl) (h ++ [.note (.packet n m)])
      rw [hu, List.append_assoc] at step
      rw [hu] at f
      have here := Relation.ReflTransGen.tail (.single note) step
      generalize h ++ ([.note (.packet n m)] ++ (la ++ lb)) = hist at here
      simp only [if_pos full]
      rcases finishImage_cases retry e f hist with
        ⟨err, t, l, run, moves, inside⟩ | ⟨last, t, l, x, run, moves, inside, len, which⟩
      · rw [run, Act.andThen_error]
        exact ⟨here.trans moves, .inl inside⟩
      · have ⟨d, hd, _⟩ := inside
        change _ ∨ _ ∧ c.format = formatPartial ∧ _ ∨ _ ∧ c.format ≠ formatPartial ∧ _ at which
        rw [run, Act.andThen_ok]
        rcases which with ⟨rfl, rfl⟩ | ⟨rfl, format, rfl⟩ | ⟨rfl, format, rfl⟩
        · simp only [if_true, Act.pure_run, List.append_nil]
          exact ⟨here.trans moves, .inr (.inr inside)⟩
        · simp only [Bool.false_eq_true, if_false, Act.bind_run,
            Act.orFail_ok (eraseNext_none e hd (len d hd)), Act.andThen_ok, if_pos format,
            Act.pure_run, List.append_nil]
          exact ⟨here.trans moves, .inr (.inl inside)⟩
        · simp only [Bool.false_eq_true, if_false, Act.bind_run,
            Act.orFail_ok (eraseNext_none e hd (len d hd)), Act.andThen_ok, if_neg format,
            List.nil_append]
          obtain ⟨more, last⟩ := rest t (hist ++ l) inside
          rw [← List.append_assoc]
          exact ⟨here.trans (moves.trans more), last⟩
    · obtain ⟨r, t, l, run, moves, inside⟩ := w.partly e retry hk ne
        (Nat.not_le.mp full) same wrote (h ++ [.note (.packet n m)])
      rw [hu] at run
      have here := Relation.ReflTransGen.head note moves
      rw [List.append_assoc, ← List.append_assoc [_], ← List.append_assoc] at here inside
      generalize h ++ ([.note (.packet n m)] ++ (la ++ lb)) = hist at here inside
      simp only [if_neg full, Act.pure_run, Act.andThen_ok, Bool.false_eq_true, if_false,
        List.nil_append, Act.bind_run, run]
      cases r with
      | error err => exact ⟨here, .inl inside⟩
      | ok _ =>
        rw [Act.andThen_ok, Act.ite_run]
        split
        · simp only [Act.pure_run, List.append_nil]
          exact ⟨here, .inl inside⟩
        · obtain ⟨more, last⟩ := rest t (hist ++ l) inside
          simp only [← List.append_assoc]
          exact ⟨here.trans more, last⟩

/-- The part of a pass that passes over an image without data. -/
def skipPass (img : ImageHdr) (next : M Unit) : M Unit := do
  nextImage img
  let c ← getCxt
  if c.totalImages ≤ c.imageIndex then setState .duplicateFs else next

theorem skipPass_moves {img : ImageHdr} (empty : img.imageLength = 0) {next : M Unit}
    (rest : Sound (Move e retry) (In .processImage) next fun _ => AfterData) :
    Sound (Move e retry) (fun s _ => ∃ c, s.cxt = some c ∧ Ctl s c ∧ Current s c img ∧
      c.imageWrtLength = 0 ∧ c.format ≠ formatPartial) (skipPass img next) fun _ => AfterData := by
  rintro s h ⟨c, hc, ctl, current, len, format⟩
  have step : Move e retry (s, h) _ :=
    .skipEmpty (freed c.partitionHdl s.handles) hc current empty len format
  have between : Between (s.hold (freed c.partitionHdl s.handles) (some (c.next img)))
      (c.next img) := .of_next ctl current.state ⟨rfl⟩ ctl.init rfl rfl
  change Move e retry (s, h) (s.hold _ (some (c.next img)), h) at step
  unfold skipPass
  rw [Act.bind_run, nextImage_run img hc, Act.andThen_ok, Act.bind_run]
  have format' : (c.next img).format ≠ formatPartial := format
  generalize s.hold (freed c.partitionHdl s.handles) (some (c.next img)) = u at step between
  generalize c.next img = d at between format'
  have hu := between.cxt
  simp only [getCxt_run hu, Act.andThen_ok, List.nil_append, Act.ite_run]
  split
  · rename_i le
    obtain ⟨run, moves, inside⟩ := between.go e retry (.last format' le) h
    rw [run, List.append_nil]
    exact ⟨.head step moves, .inr (.inr inside)⟩
  · rename_i lt
    obtain ⟨-, moves, inside⟩ := between.go e retry
      (.more format' (Nat.not_le.mp lt)) h
    have same : u.withCxt { d with fwUpgradeState := .processImage } = u := by
      rw [← between.state]
      exact withCxt_self hu
    rw [same] at inside
    obtain ⟨more, last⟩ := rest u h inside
    exact ⟨.head step more, last⟩

theorem processReceiveImage_succ (e : Env) (p : Packet) (fuel : Nat) :
    processReceiveImage e p (fuel + 1) = (do
      let c ← getCxt
      if c.format ≠ formatPartial ∧ c.bufLen ≤ c.bufOffset then pure ()
      else
        let img ← readImageHdr p c.imageIndex
        Act.when (c.imageWrtLength = 0) (startImage e img)
        if c.imageWrtLength = 0 ∧ c.format ≠ formatPartial ∧ img.imageLength = 0 then
          skipPass img (processReceiveImage e p fuel)
        else
          Act.when (c.imageWrtLength = 0) digestStarts
          writePass e p img c.format (processReceiveImage e p fuel)) := rfl

theorem processReceiveImage_moves (p : Packet) (fuel : Nat) :
    Sound (Move e retry) (In .processImage) (processReceiveImage e p fuel) fun _ => AfterData := by
  induction fuel with
  | zero => exact .pure () fun s l h => .inl h
  | succ fuel ih =>
    rintro s h ⟨c, hc, ctl, state⟩
    rw [processReceiveImage_succ]
    generalize processReceiveImage e p fuel = next at ih
    simp only [Act.bind_run, getCxt_run hc, Act.andThen_ok, List.nil_append, Act.ite_run]
    split
    · simp only [Act.pure_run, List.append_nil]
      exact ⟨.refl, .inl ⟨c, hc, ctl, state⟩⟩
    · rename_i more
      obtain ⟨img, run, current⟩ := readImageHdr_run p hc ctl state
      rw [run, Act.andThen_ok, ← List.append_assoc]
      have note : Move e retry (s, h) (s, h ++ [.note (.header c.imageIndex true)]) := .note _
      generalize h ++ [.note (.header c.imageIndex true)] = hist at note
      by_cases len : c.imageWrtLength = 0
      · simp only [Act.when_pos len, len, true_and]
        rcases startImage_starts e retry hc ctl current len hist with
          ⟨err, t, l, run, moves, inside⟩ | ⟨t, l, d, run, started⟩
        · rw [Act.bind_run, run, Act.andThen_error]
          exact ⟨.head note moves, .inl inside⟩
        · have same := started.same.eq
          have format : d.format = c.format := by rw [same]
          rw [Act.bind_run, run, Act.andThen_ok, ← List.append_assoc]
          split
          · rename_i skip
            have moves := started.moves d.digest fun pos => by omega
            rw [show t.withCxt { d with digest := d.digest } = t from withCxt_self started.cxt]
              at moves
            have pre : ∃ d, t.cxt = some d ∧ Ctl t d ∧ Current t d img ∧ d.imageWrtLength = 0 ∧
                d.format ≠ formatPartial :=
              ⟨d, started.cxt, started.ctl, started.current, started.len.trans skip.2,
                fun h => skip.1 (format ▸ h)⟩
            obtain ⟨rest, last⟩ := skipPass_moves skip.2 ih t (hist ++ l) pre
            exact ⟨.head note (moves.trans rest), last⟩
          · rename_i skip
            have moves := started.moves .starts fun _ => rfl
            have w : Writing (t.withCxt (d.hashing .starts)) (d.hashing .starts) img := by
              refine ⟨rfl, ?_, started.current.congr ⟨rfl⟩ rfl, fun partly => ⟨?_, ?_⟩⟩
              · exact started.ctl.imaging started.current.state ⟨rfl⟩ started.ctl.init rfl
                  started.ctl.held (started.ctl.count started.current.first)
              · have bufLen : d.bufLen = c.bufLen := by rw [same]
                change d.bufOffset < d.bufLen
                rw [started.offset, bufLen]
                exact Nat.not_le.mp fun le => more ⟨format ▸ partly, le⟩
              · change 0 < d.imageWrtLength
                rw [started.len]
                exact Nat.pos_of_ne_zero fun zero => skip ⟨format ▸ partly, zero⟩
            have pre : ∃ x, Writing (t.withCxt (d.hashing .starts)) x img ∧ x.format = c.format :=
              ⟨_, w, format⟩
            obtain ⟨rest, last⟩ := writePass_moves p img c.format ih _ (hist ++ l) pre
            have starts : digestStarts t = ⟨.ok (), t.withCxt (d.hashing .starts), []⟩ :=
              updateCxt_run started.cxt _
            rw [Act.bind_run, starts, Act.andThen_ok, List.nil_append]
            exact ⟨.head note (moves.trans rest), last⟩
      · simp only [Act.when_neg len, len, false_and, if_false]
        have w : Writing s c img := by
          refine ⟨hc, ctl, current, fun format => ⟨?_, Nat.pos_of_ne_zero len⟩⟩
          exact Nat.not_le.mp fun le => more ⟨format, le⟩
        obtain ⟨moves, last⟩ := writePass_moves p img c.format ih s hist ⟨c, w, rfl⟩
        exact ⟨.head note moves, last⟩

end Qapp.Fw
