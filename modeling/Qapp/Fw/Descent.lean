import Qapp.Fw.Assert
import Qapp.Fw.Calls
import Qapp.Lib.Loop
import Mathlib.Data.Prod.Lex

/-!
# The loops of a call end

Passes that take no input are bounded by the states to go through, by the images and, once there
are none left, by the entries of the trial FWD. All others use up the header or an image.
-/

namespace Qapp.Fw
open ByteMem Traced

/-! ## One pass of the loop over the data -/

/-- The body of the loop of `fw_upgrade_process_receive_image`: whether the loop goes on. -/
def imagePass (e : Env) (p : Packet) : M Bool := do
  let c ← getCxt
  if c.format ≠ formatPartial ∧ c.bufLen ≤ c.bufOffset then pure false
  else
    let img ← readImageHdr p c.imageIndex
    Act.when (c.imageWrtLength = 0) (startImage e img)
    if c.imageWrtLength = 0 ∧ c.format ≠ formatPartial ∧ img.imageLength = 0 then
      nextImage img
      let c ← getCxt
      if c.totalImages ≤ c.imageIndex then
        setState .duplicateFs
        pure false
      else pure true
    else
      Act.when (c.imageWrtLength = 0) digestStarts
      writeImageData e p
      let last ← finishIfComplete e img
      if last then pure false
      else
        (eraseNext e).orFail .flashErasePartition
        if c.format = formatPartial then pure false else pure true

theorem ite_bind {α β : Type} (c : Prop) [Decidable c] (m k : M α) (f : α → M β) :
    (if c then m else k) >>= f = if c then m >>= f else k >>= f := by
  split <;> rfl

theorem pure_bind {α β : Type} (a : α) (f : α → M β) : (pure a >>= f) = f a := rfl

theorem processReceiveImage_pass (e : Env) (p : Packet) (fuel : Nat) :
    processReceiveImage e p (fuel + 1) = (do
      if ← imagePass e p then processReceiveImage e p fuel else pure ()) := by
  rw [processReceiveImage]
  unfold imagePass
  simp only [Act.bind_assoc, ite_bind, pure_bind, Bool.false_eq_true, if_false, if_true]
  have last : (setState .duplicateFs >>= fun _ => pure ()) = setState .duplicateFs :=
    Act.bind_pure _
  rw [last]

/-- The image header the code reads, which may lie outside the array. -/
def imgAt (p : Packet) (hdrs : Option (List ImageHdr)) (i : Nat) : ImageHdr :=
  (hdrs.getD []).getD i (p.wild i)

/-- Bytes of the current image to come. -/
def bytesLeft (p : Packet) (hdrs : Option (List ImageHdr)) (c : Cxt) : Nat :=
  if c.imageWrtLength = 0 then (imgAt p hdrs c.imageIndex).imageLength
  else c.imageWrtLength - c.imageWrtCount

/-- Outside a partial upgrade a loop that has read all data of the packet ends. -/
def Cxt.drained (c : Cxt) : Prop := c.format ≠ formatPartial ∧ c.bufLen ≤ c.bufOffset

instance (c : Cxt) : Decidable c.drained := inferInstanceAs (Decidable (_ ∧ _))

/-- The measure of the loop over the data. -/
def passesLeft (c : Cxt) : Nat := (c.bufLen - c.bufOffset) + (c.totalImages - c.imageIndex)

/-- A pass with data ends an image or writes some of it, and goes on only outside a partial
upgrade. -/
structure Advances (p : Packet) (hdrs : Option (List ImageHdr)) (c : Cxt) (again : Bool)
    (d : Cxt) : Prop where
  first : d.isFirst = c.isFirst
  total : d.totalImages = c.totalImages
  bufLen : d.bufLen = c.bufLen
  format : d.format = c.format
  moved : d.imageIndex = c.imageIndex + 1 ∧ (again = true → c.bufOffset ≤ d.bufOffset) ∨
    d.imageIndex = c.imageIndex ∧ bytesLeft p hdrs d < bytesLeft p hdrs c ∧
      (again = true → c.bufOffset < d.bufOffset)
  goes : again = true → d.fwUpgradeState = c.fwUpgradeState ∧ c.bufOffset < c.bufLen ∧
    (d.imageIndex = c.imageIndex + 1 → d.imageIndex < d.totalImages)

/-- The image that is received, from the first of its data on. -/
def Cxt.began (c : Cxt) (img : ImageHdr) : Cxt :=
  if c.imageWrtLength = 0 then { c with imageWrtCount := 0, imageWrtLength := img.imageLength }
  else c

def Cxt.nexted (c : Cxt) : Cxt := { c with imageIndex := c.imageIndex + 1, imageWrtLength := 0 }

def Cxt.stored (c : Cxt) (n : Nat) : Cxt :=
  { c with bufOffset := c.source + n, imageWrtCount := c.imageWrtCount + n }

section Pass
variable {e : Env} {p : Packet} {hdrs : Option (List ImageHdr)} {x : Cxt}

theorem readImageHdr_gives (p : Packet) (i : Nat) : Triple (Has (OnCourse hdrs x)) (readImageHdr p i)
    (Gives fun img s c => img = imgAt p hdrs i ∧ OnCourse hdrs x s c) := by
  apply Triple.of
  rintro s l ⟨⟨c, hc, alike⟩, -⟩ img ok
  obtain rfl := Except.ok.inj ok
  refine .of hc ⟨?_, alike⟩ _
  rw [alike.imageHdr]
  rfl

theorem startImage_gives (e : Env) (img : ImageHdr) : Triple (Has (OnCourse hdrs x))
    (startImage e img) (Gives fun _ => OnCourse hdrs
      { x with imageWrtCount := 0, imageWrtLength := img.imageLength }) := by
  refine gives_bind (course_updateCxt (fun _ => rfl) fun _ same => same) fun _ => ?_
  exact course_steady <| .ite (createFs1_steady e img) <| .bind getCxt_steady fun _ =>
    .bind (.orFail (newPartition_steady ..) _) fun _ => .bind getCxt_steady fun _ =>
      .orFail (erasePartition_steady ..) _

theorem nextImage_gives (img : ImageHdr) : Triple (Has (OnCourse hdrs x)) (nextImage img)
    (Gives fun _ => OnCourse hdrs x.nexted) := by
  refine gives_bind (course_steady releasePartition_steady) fun _ => ?_
  exact gives_updateCxt fun s c alike => ⟨alike.imageHdr,
    congrArg Cxt.nexted alike.course, alike.state⟩

theorem writePartition_empty (e : Env) (image hdl : Option Nat) (offset addr : Nat) (s : St) :
    writePartition e image hdl offset [] addr s = ⟨.error .invalidParam, s, []⟩ := by
  cases hdl <;> rfl

/-- Only a write of some bytes succeeds. -/
theorem writePartition_gives (e : Env) (image hdl : Option Nat) (offset : Nat)
    (bytes : List UInt8) (addr : Nat) : Triple (Has (OnCourse hdrs x))
      (writePartition e image hdl offset bytes addr)
      (Gives fun _ s c => bytes ≠ [] ∧ OnCourse hdrs x s c) := by
  cases bytes with
  | nil =>
    apply Triple.of
    intro s l _ a ok
    rw [writePartition_empty] at ok
    cases ok
  | cons b bs =>
    refine (course_keeping (writePartition_keeping ..)).post fun r s l gives a ok => ?_
    exact (gives a ok).imp fun c alike => ⟨List.cons_ne_nil b bs, alike⟩

theorem writeImageData_gives (e : Env) (p : Packet) : Triple (Has (OnCourse hdrs x))
    (writeImageData e p) (Gives fun _ s c => ∃ n, 0 < n ∧
      n ≤ x.imageWrtLength - x.imageWrtCount ∧ OnCourse hdrs (x.stored n) s c) := by
  rw [writeImageData_eq]
  refine course_getCxt fun _ c alike => ?_
  have source : c.source = x.source := alike.field Cxt.source fun _ => rfl
  have len : c.writeLen = x.writeLen := alike.field Cxt.writeLen fun _ => rfl
  have format : c.format = x.format := alike.field Cxt.format fun _ => rfl
  have left : c.imageWrtLength - c.imageWrtCount = x.imageWrtLength - x.imageWrtCount :=
    alike.field (fun c => c.imageWrtLength - c.imageWrtCount) fun _ => rfl
  have bufLen : c.bufLen = x.bufLen := alike.field Cxt.bufLen fun _ => rfl
  rw [source, len, format, left, bufLen]
  have rewound : Triple (Has (OnCourse hdrs x))
      (Act.when (x.format = formatPartial) (updateCxt fun c => { c with bufOffset := 0 }))
      (Gives fun _ => OnCourse hdrs { x with bufOffset := x.source }) := by
    unfold Cxt.source
    by_cases only : x.format = formatPartial
    · rw [Act.when_pos only, if_pos only]
      exact course_updateCxt (fun _ => rfl) fun _ same => same
    · rw [Act.when_neg only, if_neg only]
      exact gives_pure fun _ _ alike => alike
  refine gives_bind rewound fun _ => gives_ite (fun _ => gives_fail) fun fits => ?_
  refine gives_bind gives_emit fun _ => ?_
  refine gives_bind (course_keeping (digestUpdate_keeping _)) fun _ => ?_
  refine gives_bind (gives_orFail (course_steady (eraseAhead_steady ..)) _) fun _ => ?_
  refine gives_bind (gives_orFail (writePartition_gives e _ _ _ _ _) _) fun _ =>
    gives_assume fun some => ?_
  have pos : 0 < x.writeLen := by
    by_contra none
    rw [Nat.eq_zero_of_not_pos none] at some
    exact some rfl
  have le : x.writeLen ≤ x.imageWrtLength - x.imageWrtCount := by
    unfold Cxt.writeLen
    split
    next only => exact Nat.not_lt.mp fun more => fits ⟨only, more⟩
    next => exact Nat.min_le_right _ _
  exact gives_imp (course_updateCxt (fun _ => rfl) fun _ same => same)
    fun _ s c alike => ⟨x.writeLen, pos, le, alike⟩

/-- An image that is complete is left; the loop goes on if there are more outside a partial
upgrade. -/
def Leaves (hdrs : Option (List ImageHdr)) (y : Cxt) (last : Bool) (s : St) (c : Cxt) : Prop :=
  ∃ state, OnCourse hdrs { y.nexted with fwUpgradeState := state } s c ∧
    (last = false → y.format ≠ formatPartial →
      state = y.fwUpgradeState ∧ y.imageIndex + 1 < y.totalImages)

/-- The state is set at the end. -/
theorem setState_gives (state : FwState) : Triple (Has (OnCourse hdrs x)) (setState state)
    (Gives fun _ => OnCourse hdrs { x with fwUpgradeState := state }) :=
  course_updateCxt (fun _ => rfl) fun _ _ => rfl

theorem finishImage_gives (e : Env) (img : ImageHdr) : Triple (Has (OnCourse hdrs x))
    (finishImage e img) (Gives (Leaves hdrs x)) := by
  refine gives_bind (gives_cleanUp (course_keeping (verifyImageHash_keeping ..)) _) fun _ => ?_
  refine gives_bind (nextImage_gives _) fun _ => course_getCxt fun _ c alike => ?_
  have format : c.format = x.format := alike.field Cxt.format fun _ => rfl
  have total : c.totalImages = x.totalImages := alike.field Cxt.totalImages fun _ => rfl
  have index : c.imageIndex = x.imageIndex + 1 := alike.field Cxt.imageIndex fun _ => rfl
  rw [format, total, index]
  refine gives_ite (fun only => ?_) fun _ => gives_ite (fun _ => ?_) fun more => ?_
  · exact gives_bind (setState_gives _) fun _ => gives_pure fun s c alike =>
      ⟨_, alike, fun _ full => absurd only full⟩
  · exact gives_bind (setState_gives _) fun _ => gives_pure fun s c alike =>
      ⟨_, alike, fun never => nomatch never⟩
  · exact gives_pure fun s c alike => ⟨_, alike, fun _ _ => ⟨rfl, Nat.not_le.mp more⟩⟩

theorem finishIfComplete_gives (e : Env) (img : ImageHdr) : Triple (Has (OnCourse hdrs x))
    (finishIfComplete e img) (Gives fun last s c =>
      x.imageWrtCount < x.imageWrtLength ∧ OnCourse hdrs x s c ∨ Leaves hdrs x last s c) := by
  refine course_getCxt fun _ c alike => ?_
  have length : c.imageWrtLength = x.imageWrtLength := alike.field Cxt.imageWrtLength fun _ => rfl
  have count : c.imageWrtCount = x.imageWrtCount := alike.field Cxt.imageWrtCount fun _ => rfl
  rw [length, count]
  refine gives_ite (fun _ => ?_) fun more => ?_
  · exact gives_imp (finishImage_gives e img) fun _ _ _ leaves => .inr leaves
  · exact gives_pure fun s c alike => .inl ⟨Nat.not_le.mp more, alike⟩

theorem Cxt.began_left (c : Cxt) (p : Packet) (hdrs : Option (List ImageHdr)) :
    (c.began (imgAt p hdrs c.imageIndex)).imageWrtLength -
      (c.began (imgAt p hdrs c.imageIndex)).imageWrtCount = bytesLeft p hdrs c := by
  unfold Cxt.began bytesLeft
  split <;> rfl

/-- The fields that neither the start of an image nor its data change. -/
structure SameImage (x y : Cxt) : Prop where
  first : y.isFirst = x.isFirst
  total : y.totalImages = x.totalImages
  bufLen : y.bufLen = x.bufLen
  format : y.format = x.format
  index : y.imageIndex = x.imageIndex
  state : y.fwUpgradeState = x.fwUpgradeState

theorem Cxt.began_same (c : Cxt) (img : ImageHdr) :
    SameImage c (c.began img) ∧ (c.began img).bufOffset = c.bufOffset := by
  unfold Cxt.began
  split <;> exact ⟨⟨rfl, rfl, rfl, rfl, rfl, rfl⟩, rfl⟩

/-- The image that was received is left. -/
theorem Advances.leave {y d : Cxt} {s : St} {state : FwState} {again : Bool} (same : SameImage x y)
    (alike : OnCourse hdrs { y.nexted with fwUpgradeState := state } s d)
    (goes : again = true → x.bufOffset ≤ y.bufOffset ∧ state = x.fwUpgradeState ∧
      x.bufOffset < x.bufLen ∧ x.imageIndex + 1 < x.totalImages) : Advances p hdrs x again d := by
  have total : d.totalImages = x.totalImages :=
    (alike.field Cxt.totalImages fun _ => rfl).trans same.total
  have index : d.imageIndex = x.imageIndex + 1 :=
    (alike.field Cxt.imageIndex fun _ => rfl).trans (congrArg (· + 1) same.index)
  have offset : d.bufOffset = y.bufOffset := alike.field Cxt.bufOffset fun _ => rfl
  constructor
  · exact (alike.field Cxt.isFirst fun _ => rfl).trans same.first
  · exact total
  · exact (alike.field Cxt.bufLen fun _ => rfl).trans same.bufLen
  · exact (alike.field Cxt.format fun _ => rfl).trans same.format
  · exact .inl ⟨index, fun more => offset ▸ (goes more).1⟩
  · intro more
    obtain ⟨-, stays, some, lt⟩ := goes more
    refine ⟨alike.state.trans stays, some, fun _ => ?_⟩
    rw [index, total]
    exact lt

/-- Some of the image has been written. -/
theorem Advances.write {y d : Cxt} {s : St} {again : Bool} {n : Nat} (same : SameImage x y)
    (left : y.imageWrtLength - y.imageWrtCount = bytesLeft p hdrs x) (pos : 0 < n)
    (short : y.imageWrtCount + n < y.imageWrtLength) (alike : OnCourse hdrs (y.stored n) s d)
    (goes : again = true → x.bufOffset ≤ y.source ∧ x.bufOffset < x.bufLen) :
    Advances p hdrs x again d := by
  have index : d.imageIndex = x.imageIndex :=
    (alike.field Cxt.imageIndex fun _ => rfl).trans same.index
  have offset : d.bufOffset = y.source + n := alike.field Cxt.bufOffset fun _ => rfl
  have rest : bytesLeft p hdrs d = bytesLeft p hdrs (y.stored n) :=
    alike.field (bytesLeft p hdrs) fun _ => rfl
  constructor
  · exact (alike.field Cxt.isFirst fun _ => rfl).trans same.first
  · exact (alike.field Cxt.totalImages fun _ => rfl).trans same.total
  · exact (alike.field Cxt.bufLen fun _ => rfl).trans same.bufLen
  · exact (alike.field Cxt.format fun _ => rfl).trans same.format
  · refine .inr ⟨index, ?_, fun more => ?_⟩
    · have length : bytesLeft p hdrs (y.stored n) = y.imageWrtLength - (y.imageWrtCount + n) :=
        if_neg (by change y.imageWrtLength ≠ 0; omega)
      rw [rest, length, ← left]
      omega
    · have := (goes more).1
      omega
  · refine fun more => ⟨alike.state.trans same.state, (goes more).2, fun next => ?_⟩
    rw [index] at next
    omega

/-- What the first statements of a pass leave of the context. -/
theorem began_gives (e : Env) (img : ImageHdr) : Triple (Has (OnCourse hdrs x))
    (Act.when (x.imageWrtLength = 0) (startImage e img)) (Gives fun _ => OnCourse hdrs (x.began img)) := by
  unfold Cxt.began
  by_cases fresh : x.imageWrtLength = 0
  · rw [Act.when_pos fresh, if_pos fresh]
    exact startImage_gives e img
  · rw [Act.when_neg fresh, if_neg fresh]
    exact gives_pure fun _ _ alike => alike

/-- Each pass either finds no data, or ends an image or writes some of it. -/
theorem imagePass_gives (e : Env) (p : Packet) : Triple (Has (OnCourse hdrs x)) (imagePass e p)
    (Gives fun again s c => s.imageHdr = hdrs ∧
      (again = false ∧ x.drained ∧ OnCourse hdrs x s c ∨ Advances p hdrs x again c)) := by
  refine course_getCxt fun _ c alike => ?_
  have drained : (c.format ≠ formatPartial ∧ c.bufLen ≤ c.bufOffset) = x.drained :=
    alike.field Cxt.drained fun _ => rfl
  have length : c.imageWrtLength = x.imageWrtLength := alike.field Cxt.imageWrtLength fun _ => rfl
  have format : c.format = x.format := alike.field Cxt.format fun _ => rfl
  have index : c.imageIndex = x.imageIndex := alike.field Cxt.imageIndex fun _ => rfl
  rw [length, index]
  refine gives_ite (fun empty => ?_) fun data => ?_
  · rw [drained] at empty
    exact gives_pure fun s d alike => ⟨alike.imageHdr, .inl ⟨rfl, empty, alike⟩⟩
  rw [drained] at data
  refine gives_bind (readImageHdr_gives p _) fun img => gives_assume ?_
  rintro rfl
  refine gives_bind (began_gives e _) fun _ => ?_
  obtain ⟨same, offset⟩ := x.began_same (imgAt p hdrs x.imageIndex)
  have left := x.began_left p hdrs
  generalize x.began (imgAt p hdrs x.imageIndex) = y at *
  have some_data : x.format ≠ formatPartial → x.bufOffset < x.bufLen := by
    intro full
    by_contra none
    exact data ⟨full, Nat.not_lt.mp none⟩
  refine gives_ite (fun skip => ?_) fun _ => ?_
  · refine gives_bind (nextImage_gives _) fun _ => course_getCxt fun _ d alike => ?_
    have total : d.totalImages = x.totalImages :=
      (alike.field Cxt.totalImages fun _ => rfl).trans same.total
    have next : d.imageIndex = x.imageIndex + 1 :=
      (alike.field Cxt.imageIndex fun _ => rfl).trans (congrArg (· + 1) same.index)
    rw [total, next]
    refine gives_ite (fun _ => ?_) fun more => ?_
    · exact gives_bind (setState_gives _) fun _ => gives_pure fun s d alike =>
        ⟨alike.imageHdr, .inr (.leave same alike fun never => nomatch never)⟩
    · exact gives_pure fun s d alike => ⟨alike.imageHdr, .inr (.leave same alike fun _ =>
        ⟨Nat.le_of_eq offset.symm, same.state, some_data (format ▸ skip.2.1), Nat.not_le.mp more⟩)⟩
  · have starts : Triple (Has (OnCourse hdrs y)) (Act.when (x.imageWrtLength = 0) digestStarts)
        (Gives fun _ => OnCourse hdrs y) := course_keeping (.when digestStarts_keeping)
    refine gives_bind starts fun _ => gives_bind (writeImageData_gives e p) fun _ =>
      gives_exists fun n => gives_assume fun pos => gives_assume fun le => ?_
    refine gives_bind (finishIfComplete_gives e _) fun last => ?_
    have stored : SameImage x (y.stored n) :=
      ⟨same.first, same.total, same.bufLen, same.format, same.index, same.state⟩
    have source : x.format ≠ formatPartial → y.source = x.bufOffset := by
      intro full
      rw [← offset]
      exact if_neg (same.format ▸ full)
    refine gives_ite (fun _ => ?_) fun onward => ?_
    · refine gives_pure fun s d done => ?_
      obtain ⟨short, alike⟩ | ⟨state, alike, -⟩ := done
      · exact ⟨alike.imageHdr, .inr (.write same left pos short alike fun never => nomatch never)⟩
      · exact ⟨alike.imageHdr, .inr (.leave stored alike fun never => nomatch never)⟩
    · have closed : ∀ s c t d, ((y.stored n).imageWrtCount < (y.stored n).imageWrtLength ∧
          OnCourse hdrs (y.stored n) s c ∨ Leaves hdrs (y.stored n) last s c) →
          OnCourse s.imageHdr c t d → ((y.stored n).imageWrtCount < (y.stored n).imageWrtLength ∧
          OnCourse hdrs (y.stored n) t d ∨ Leaves hdrs (y.stored n) last t d) := by
        intro s c t d before after
        exact before.imp (fun h => ⟨h.1, h.2.trans after⟩) fun h => h.imp fun _ h =>
          ⟨h.1.trans after, h.2⟩
      refine gives_bind (gives_orFail (gives_keeping (Keeping.of (eraseNext_steady e)) closed) _)
        fun _ => gives_ite (fun only => ?_) fun full => ?_
      · refine gives_pure fun s d done => ?_
        obtain ⟨short, alike⟩ | ⟨state, alike, -⟩ := done
        · exact ⟨alike.imageHdr, .inr (.write same left pos short alike fun never => nomatch never)⟩
        · exact ⟨alike.imageHdr, .inr (.leave stored alike fun never => nomatch never)⟩
      · rw [format] at full
        refine gives_pure fun s d done => ?_
        obtain ⟨short, alike⟩ | ⟨state, alike, stays⟩ := done
        · exact ⟨alike.imageHdr, .inr (.write same left pos short alike fun _ =>
            ⟨Nat.le_of_eq (source full).symm, some_data full⟩)⟩
        · obtain ⟨kept, more⟩ := stays (Bool.eq_false_of_not_eq_true onward) (same.format ▸ full)
          refine ⟨alike.imageHdr, .inr (.leave stored alike fun _ => ⟨?_, kept.trans same.state,
            some_data full, ?_⟩)⟩
          · change x.bufOffset ≤ y.source + n
            have := source full
            omega
          · change y.imageIndex + 1 < y.totalImages at more
            rwa [same.index, same.total] at more

end Pass

/-- What a pass that the loop goes on after leaves. -/
def imageNext (e : Env) (p : Packet) (s : St) : Option St :=
  match (imagePass e p s).res with
  | .ok true => some (imagePass e p s).state
  | _ => none

section Image
variable {e : Env} {p : Packet} {s t : St}

theorem imageNext_some (next : imageNext e p s = some t) :
    (imagePass e p s).res = .ok true ∧ t = (imagePass e p s).state := by
  unfold imageNext at next
  split at next
  next again => exact ⟨again, (Option.some.inj next).symm⟩
  next => cases next

/-- Every pass the loop goes on after reads data or takes an image. -/
theorem imagePass_descends {c : Cxt} (hc : s.cxt = some c) (next : imageNext e p s = some t) :
    ∃ d, t.cxt = some d ∧ passesLeft d < passesLeft c := by
  obtain ⟨again, rfl⟩ := imageNext_some next
  obtain ⟨d, hd, -, ⟨never, -⟩ | advances⟩ :=
    Gives.elim (imagePass_gives e p) hc (OnCourse.refl s c) again
  · cases never
  · refine ⟨d, hd, ?_⟩
    obtain ⟨-, some, inside⟩ := advances.goes rfl
    unfold passesLeft
    rw [advances.bufLen]
    obtain ⟨index, offset⟩ | ⟨index, -, offset⟩ := advances.moved
    · have := inside index
      have := offset rfl
      have := advances.total
      omega
    · have := offset rfl
      have := advances.total
      omega

/-- Fuel above the measure is never used up. -/
theorem processReceiveImage_fuel {c : Cxt} (hc : s.cxt = some c) {n m : Nat}
    (enough : passesLeft c < n) (le : n ≤ m) :
    processReceiveImage e p m s = processReceiveImage e p n s := by
  induction n generalizing m s c with
  | zero => exact absurd enough (Nat.not_lt_zero _)
  | succ n ih =>
    obtain ⟨m, rfl⟩ : ∃ k, m = k + 1 := ⟨m - 1, by omega⟩
    rw [processReceiveImage_pass, processReceiveImage_pass, Act.bind_run, Act.bind_run]
    rcases run : imagePass e p s with ⟨_ | again, t, l⟩
    · rfl
    · rw [Act.andThen_ok, Act.andThen_ok]
      cases again with
      | false => rfl
      | true =>
        have next : imageNext e p s = some t := by
          unfold imageNext
          rw [run]
        obtain ⟨d, hd, lt⟩ := imagePass_descends hc next
        rw [if_pos rfl, if_pos rfl, ih hd (by omega) (Nat.le_of_succ_le_succ le)]

end Image

end Qapp.Fw
