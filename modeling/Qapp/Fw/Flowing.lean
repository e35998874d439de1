import Qapp.Fw.Partial
import Qapp.Fw.Descent

/-!
# Receiving the images of a full upgrade

A packet may carry the end of one image, whole images and the beginning of another. The loop
takes them one after the other, until the packet or the last image has ended.
-/

namespace Qapp.Fw
open ByteMem Traced

variable {e : Env} {S : List UInt8} {pos n taken : Nat} {p : Packet} {flags : Nat → Bool}
  {x : Cxt} {img : ImageHdr}

/-! ## Between two passes -/

/-- The packet has been used as far as the stream. -/
structure Flows (S : List UInt8) (pos : Nat) (p : Packet) (taken : Nat) (c : Cxt) : Prop
    extends Awaits S taken c where
  state : c.fwUpgradeState = .processImage
  bufLen : c.bufLen = p.len
  placed : taken = pos + c.bufOffset
  within : c.bufOffset ≤ p.len

/-- The last image has been left. -/
structure Concluded (S : List UInt8) (taken : Nat) (c : Cxt) : Prop extends Paused S taken c where
  last : c.totalImages ≤ c.imageIndex
  state : c.fwUpgradeState = .duplicateFs

theorem Flows.congr {c : Cxt} (same : c.progress = x.progress)
    (state : c.fwUpgradeState = x.fwUpgradeState) (h : Flows S pos p taken x) :
    Flows S pos p taken c where
  toAwaits := h.toAwaits.congr same
  state := state.trans h.state
  bufLen := (eq_of_progress same _ fun _ => rfl).trans h.bufLen
  placed := by
    rw [eq_of_progress same Cxt.bufOffset fun _ => rfl]
    exact h.placed
  within := by
    rw [eq_of_progress same Cxt.bufOffset fun _ => rfl]
    exact h.within

theorem Concluded.congr {c : Cxt} (same : c.progress = x.progress)
    (state : c.fwUpgradeState = x.fwUpgradeState) (h : Concluded S taken x) :
    Concluded S taken c where
  toPaused := h.toPaused.congr same
  last := by
    rw [eq_of_progress same Cxt.imageIndex fun _ => rfl,
      eq_of_progress same Cxt.totalImages fun _ => rfl]
    exact h.last
  state := state.trans h.state

theorem passesLeft_congr {c : Cxt} (same : c.progress = x.progress) :
    passesLeft c = passesLeft x :=
  eq_of_progress same passesLeft fun _ => rfl

/-- What the loop leaves behind: nothing of the packet is left, or no image. -/
def Flowed (S : List UInt8) (pos : Nat) (p : Packet) (r : Except Status Unit) (s : St)
    (l : List Event) : Prop :=
  match r with
  | .ok _ => ∃ taken, pos ≤ taken ∧ taken ≤ pos + p.len ∧ Rests S pos p.len taken
      (fun c => Flows S pos p taken c ∧ c.bufOffset = p.len ∨ Concluded S taken c) s l
  | .error _ => Partly S pos p.len l

/-! ## Leaving an image -/

/-- An image without data needs no verification. -/
theorem Digested.empty {l : List Event} {i : Nat} (h : Digested flags S i l)
    (empty : imageLen S i = 0) : Digested flags S (i + 1) l := by
  intro m lt flag some
  obtain lt | rfl := Nat.lt_or_eq_of_le (Nat.lt_succ_iff.mp lt)
  · exact h m lt flag some
  · omega

theorem stand_nextImage (img : ImageHdr) :
    Triple (Stays (Partly S pos n) fun s c l => Stands S taken x s c l ∧
        Digested x.downloadFlag S (x.imageIndex + 1) l) (nextImage img)
      fun _ => Stand S pos n taken (x.next img) := by
  apply Triple.of
  rintro s l ⟨⟨c, hc, h, digested⟩, partly⟩
  rw [nextImage_run img hc, List.append_nil]
  refine ⟨⟨c.next img, rfl, ?_, h.state, h.hdrs, h.ledger, digested⟩, partly⟩
  exact eq_of_progress h.progress (fun c => (c.next img).progress) fun _ => rfl

theorem Imaging.next (imaging : Imaging S x)
    (used : taken = imageStart S x.downloadFlag (x.imageIndex + 1)) : Paused S taken (x.next img) :=
  ⟨⟨imaging.first, imaging.format, imaging.total, imaging.flags⟩, rfl, used⟩

theorem Paused.flows (paused : Paused S taken x) (full : hdrFormat S ≠ formatPartial)
    (more : x.imageIndex < x.totalImages) (state : x.fwUpgradeState = .processImage)
    (bufLen : x.bufLen = p.len) (placed : taken = pos + x.bufOffset)
    (within : x.bufOffset ≤ p.len) : Flows S pos p taken x :=
  ⟨⟨paused.toImaging, fun _ => ⟨paused.used, more, paused.flags full _⟩,
    fun busy => absurd paused.idle busy⟩, state, bufLen, placed, within⟩

theorem conclude_rests (paused : Paused S taken x) (last : x.totalImages ≤ x.imageIndex) :
    Triple (Stand S pos n taken x) (setState .duplicateFs)
      fun _ => Rests S pos n taken (Concluded S taken) := by
  have set : Triple (Stand S pos n taken x) (setState .duplicateFs)
      fun _ => Stand S pos n taken { x with fwUpgradeState := .duplicateFs } :=
    stand_updateCxt (fun _ => rfl) rfl (fun _ _ => rfl) rfl fun _ h => h
  refine set.post fun r s l h => h.rests fun c same state => ?_
  have here : Concluded S taken { x with fwUpgradeState := .duplicateFs } :=
    ⟨⟨⟨paused.first, paused.format, paused.total, paused.flags⟩, paused.idle, paused.used⟩,
      last, rfl⟩
  exact here.congr same state

theorem Flowed.concluded {s : St} {l : List Event} (lo : pos ≤ taken) (hi : taken ≤ pos + p.len)
    (h : Rests S pos p.len taken (Concluded S taken) s l) : Flowed S pos p (.ok ()) s l :=
  ⟨taken, lo, hi, h.imp fun _ rests => ⟨rests.1, .inr rests.2⟩⟩

/-! ## A pass -/

/-- An image without data is passed over. -/
theorem skipPass_flows {next : M Unit} (full : hdrFormat S ≠ formatPartial)
    (flows : Flows S pos p taken x) (hdr : (streamHdrs S)[x.imageIndex]? = some img)
    (empty : img.imageLength = 0) (idle : x.imageWrtLength = 0)
    (rest : ∀ taken y, Flows S pos p taken y → passesLeft y < passesLeft x →
      Triple (Stand S pos p.len taken y) next (Flowed S pos p)) :
    Triple (Stand S pos p.len taken x) (skipPass img next) (Flowed S pos p) := by
  have len : imageLen S x.imageIndex = 0 := (imageLen_of_get hdr).trans empty
  have used : taken = imageStart S x.downloadFlag (x.imageIndex + 1) := by
    rw [imageStart, len, ite_self]
    exact (flows.between idle).1
  have paused : Paused S taken (x.next img) := flows.toImaging.next used
  have lo := flows.placed
  have within := flows.within
  have next := (@stand_nextImage S pos p.len taken x img).pre
    fun s l (h : Stand S pos p.len taken x s l) => h.imp fun c stands =>
      ⟨stands, stands.verified.empty len⟩
  refine stays_bind next (fun _ _ _ h => h) fun _ => stand_getCxt fun c same state =>
    .ite (fun last => ?_) fun more => ?_
  · refine (conclude_rests (paused.congr same) last).post fun r s l h => ?_
    cases r with
    | ok => exact .concluded (by omega) (by omega) h
    | error => exact h.2
  · have ahead : Flows S pos p taken (x.next img) := by
      refine paused.flows full ?_ flows.state flows.bufLen flows.placed flows.within
      rw [← eq_of_progress same Cxt.imageIndex fun _ => rfl,
        ← eq_of_progress same Cxt.totalImages fun _ => rfl]
      exact Nat.not_le.mp more
    refine rest taken c (ahead.congr same state) ?_
    have lt := flows.lt
    rw [passesLeft_congr same]
    simp only [passesLeft, Cxt.next]
    omega

/-- What is left behind once an image has been looked at. -/
def FlowedOn (S : List UInt8) (pos : Nat) (p : Packet) (taken : Nat) (x : Cxt)
    (r : Except Status Bool) (s : St) (l : List Event) : Prop :=
  match r with
  | .ok true => Rests S pos p.len taken (Concluded S taken) s l
  | .ok false => Rests S pos p.len taken
      (fun c => Flows S pos p taken c ∧ passesLeft c ≤ passesLeft x) s l
  | .error _ => Partly S pos p.len l

theorem finishIfComplete_flows (e : Env) (full : hdrFormat S ≠ formatPartial)
    (midst : Midst S taken x) (state : x.fwUpgradeState = .processImage)
    (bufLen : x.bufLen = p.len) (placed : taken = pos + x.bufOffset)
    (within : x.bufOffset ≤ p.len) (hdr : (streamHdrs S)[x.imageIndex]? = some img) :
    Triple (Stand S pos p.len taken x) (finishIfComplete e img) (FlowedOn S pos p taken x) := by
  have stop : ∀ err s l, Partly S pos p.len l → FlowedOn S pos p taken x (.error err) s l :=
    fun _ _ _ h => h
  apply finishIfComplete_stands e (by omega) (by omega) midst hdr stop
  · intro used
    have imaging : Imaging S (x.verified img) :=
      ⟨midst.first, midst.format, midst.total, midst.flags⟩
    have paused : Paused S taken ((x.verified img).next img) := by
      refine imaging.next (used.trans ?_)
      change _ = imageStart S x.downloadFlag (x.imageIndex + 1)
      rw [imageStart, if_pos midst.flag]
    refine stays_bind (@stand_nextImage S pos p.len taken (x.verified img) img) stop fun _ =>
      stand_getCxt fun c same state' => ?_
    have format : c.format ≠ formatPartial := (paused.congr same).format ▸ full
    rw [if_neg format]
    refine .ite (fun last => ?_) fun more => .pure false fun s l h => h.rests fun d same' next => ?_
    · refine .andThen (conclude_rests (paused.congr same) last) (fun _ _ _ h => h.2) fun _ =>
        .pure true fun s l h => h
    · have ahead : Flows S pos p taken ((x.verified img).next img) := by
        refine paused.flows full ?_ state bufLen placed within
        rw [← eq_of_progress same Cxt.imageIndex fun _ => rfl,
          ← eq_of_progress same Cxt.totalImages fun _ => rfl]
        exact Nat.not_le.mp more
      refine ⟨(ahead.congr same state').congr same' next, ?_⟩
      rw [passesLeft_congr same', passesLeft_congr same]
      simp only [passesLeft, Cxt.next, Cxt.verified, Cxt.hashing]
      omega
  · intro short s l h
    refine h.rests fun c same state' => ?_
    have here : Flows S pos p taken x :=
      ⟨⟨midst.toImaging, fun idle => by omega, fun _ => ⟨midst, short⟩⟩, state, bufLen, placed,
        within⟩
    exact ⟨here.congr same state', Nat.le_of_eq (passesLeft_congr same)⟩

/-- What the packet has of the current image is written. -/
theorem writePass_flows (e : Env) {format : Nat} {next : M Unit} (carries : Carries S pos p)
    (full : hdrFormat S ≠ formatPartial) (other : format ≠ formatPartial)
    (flows : Flows S pos p taken x) (busy : x.imageWrtLength ≠ 0) (left : x.bufOffset < p.len)
    (hdr : (streamHdrs S)[x.imageIndex]? = some img)
    (rest : ∀ taken y, Flows S pos p taken y → passesLeft y < passesLeft x →
      Triple (Stand S pos p.len taken y) next (Flowed S pos p)) :
    Triple (Stand S pos p.len taken x) (writePass e p img format next) (Flowed S pos p) := by
  obtain ⟨midst, short⟩ := flows.current busy
  have notPartial : x.format ≠ formatPartial := flows.format ▸ full
  have source : x.source = x.bufOffset := if_neg notPartial
  have writeLen : x.writeLen = min (p.len - x.bufOffset) (x.imageWrtLength - x.imageWrtCount) := by
    rw [Cxt.writeLen, if_neg notPartial, source, flows.bufLen]
  have placed := flows.placed
  have inside := carries.inside
  have length : ((S.drop taken).take x.writeLen).length = x.writeLen := by
    rw [List.length_take, List.length_drop]
    omega
  have offset : (x.wrote ((S.drop taken).take x.writeLen)).bufOffset =
      x.bufOffset + x.writeLen := by
    rw [Cxt.wrote, source, length]
  have write := writeImageData_stands e carries midst flows.bufLen (source ▸ placed)
    (source ▸ flows.within)
  refine .andThen write (fun _ _ _ h => h) fun _ => .assume (fun s l h => h.1) fun room => ?_
  have finish : Triple _ _ (FlowedOn S pos p (taken + x.writeLen)
      (x.wrote ((S.drop taken).take x.writeLen))) :=
    finishIfComplete_flows e full (midst.wrote room length) flows.state flows.bufLen (by omega)
      (by omega) hdr
  refine .andThen (finish.pre fun s l h => h.2) (fun _ _ _ h => h) fun last => ?_
  cases last with
  | true =>
    rw [if_pos rfl]
    exact .pure () fun s l h => .concluded (by omega) (by omega) h
  | false =>
    rw [if_neg Bool.false_ne_true]
    refine rests_elim (φ := fun c => Flows S pos p (taken + x.writeLen) c ∧
      passesLeft c ≤ passesLeft (x.wrote ((S.drop taken).take x.writeLen))) fun y ahead => ?_
    refine stand_bind (stand_steady (.orFail (eraseNext_steady e) _)) (fun _ _ _ h => h) fun _ => ?_
    rw [if_neg other]
    refine rest _ y ahead.1 (Nat.lt_of_le_of_lt ahead.2 ?_)
    have bufLen := flows.bufLen
    rw [passesLeft, passesLeft, offset]
    change x.bufLen - (x.bufOffset + x.writeLen) + (x.totalImages - x.imageIndex) < _
    omega

/-! ## The loop -/

/-- With the partition created an image is at its start. -/
theorem Flows.begun (h : Flows S pos p taken x) (idle : x.imageWrtLength = 0)
    (hdr : (streamHdrs S)[x.imageIndex]? = some img) (some : img.imageLength ≠ 0) :
    Flows S pos p taken { x with
      imageWrtCount := 0, imageWrtLength := img.imageLength, digest := .starts } :=
  have midst := h.toAwaits.begun idle hdr
  ⟨⟨midst.toImaging, fun no => absurd no some, fun _ => ⟨midst, Nat.pos_of_ne_zero some⟩⟩,
    h.state, h.bufLen, h.placed, h.within⟩

/-- Enough passes use up the packet or the images. -/
theorem processReceiveImage_flows (e : Env) (carries : Carries S pos p)
    (full : hdrFormat S ≠ formatPartial) (fuel : Nat) {taken : Nat} {x : Cxt}
    (flows : Flows S pos p taken x) (enough : passesLeft x < fuel) :
    Triple (Stand S pos p.len taken x) (processReceiveImage e p fuel) (Flowed S pos p) := by
  have stop : ∀ err s l, Partly S pos p.len l → Flowed S pos p (.error err) s l :=
    fun _ _ _ h => h
  induction fuel generalizing taken x with
  | zero => exact absurd enough (Nat.not_lt_zero _)
  | succ fuel ih =>
    rw [processReceiveImage_succ]
    apply stand_getCxt
    intro c same state
    replace flows := flows.congr same state
    rw [← passesLeft_congr same] at enough
    have format : c.format ≠ formatPartial := flows.format ▸ full
    have rest {y : Cxt} (eq : passesLeft y = passesLeft c) : ∀ taken z, Flows S pos p taken z →
        passesLeft z < passesLeft y →
        Triple (Stand S pos p.len taken z) (processReceiveImage e p fuel) (Flowed S pos p) :=
      fun _ _ flows lt => ih flows (by omega)
    have bufLen := flows.bufLen
    have placed := flows.placed
    have within := flows.within
    refine .ite (fun drained => .pure () fun s l h => ?_) fun more => stand_readImageHdr ?_
    · have le : c.bufLen ≤ c.bufOffset := drained.2
      refine ⟨taken, by omega, by omega, h.rests fun d same' state' => .inl ?_⟩
      refine ⟨flows.congr same' state', ?_⟩
      rw [eq_of_progress same' Cxt.bufOffset fun _ => rfl]
      omega
    have left : c.bufOffset < p.len := bufLen ▸ Nat.not_le.mp fun le => more ⟨format, le⟩
    have hdr := flows.hdr p
    generalize (streamHdrs S).getD c.imageIndex (p.wild c.imageIndex) = img at hdr
    by_cases idle : c.imageWrtLength = 0
    · simp only [Act.when_pos idle]
      refine stand_bind (startImage_stands e img) stop fun _ => .ite (fun skip => ?_) fun keep => ?_
      · have here : Flows S pos p taken { c with
            imageWrtCount := 0, imageWrtLength := img.imageLength } :=
          ⟨⟨⟨flows.first, flows.format, flows.total, flows.flags⟩, fun _ => flows.between idle,
            fun busy => absurd skip.2.2 busy⟩, flows.state, bufLen, placed, within⟩
        exact skipPass_flows full here hdr skip.2.2 skip.2.2 (rest rfl)
      · have data : img.imageLength ≠ 0 := fun empty => keep ⟨idle, format, empty⟩
        refine stand_bind (y := { c with
          imageWrtCount := 0, imageWrtLength := img.imageLength, digest := .starts }) ?_ stop
          fun _ => writePass_flows e carries full format (flows.begun idle hdr data) data left hdr
            (rest rfl)
        exact stand_updateCxt (fun _ => rfl) rfl (fun _ h => h) rfl fun _ h => h
    · simp only [Act.when_neg idle, idle, false_and, if_false]
      exact stand_bind (.pure () fun s l h => h) stop fun _ => stand_bind (.pure () fun s l h => h)
        stop fun _ => writePass_flows e carries full format flows idle left hdr (rest rfl)

end Qapp.Fw
