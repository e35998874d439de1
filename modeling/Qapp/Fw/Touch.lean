import Qapp.Fw.Device
import Qapp.Fw.Mem
import Qapp.Fw.Session

/-!
# What a stretch of code does to the devices

`Touches` sums up code that leaves the session context alone: its operations are
all in the trace, and the devices it leaves are those operations' effect.
-/

namespace Qapp.Fw
open ByteMem Traced

/-- The states differ only in what a session does not see: handles it does not hold,
allocations, and faults that have been used up. -/
structure Quiet (s t : St) : Prop where
  flash : t.flash = s.flash
  rram : t.rram = s.rram
  cxt : t.cxt = s.cxt
  imageHdr : t.imageHdr = s.imageHdr
  init : s.fuInitialized = true →
    t.fuInitialized = true ∧ t.fwdSupportNum = s.fwdSupportNum
  partition : t.partition = s.partition
  reads : t.readFaults <:+ s.readFaults
  ops : t.opFaults <:+ s.opFaults

theorem Quiet.refl (s : St) : Quiet s s :=
  ⟨rfl, rfl, rfl, rfl, fun h => ⟨h, rfl⟩, rfl, List.suffix_refl _, List.suffix_refl _⟩

theorem partition_congr {s t : St} (handles : t.handles = s.handles) (cxt : t.cxt = s.cxt) :
    t.partition = s.partition := by
  unfold St.partition
  rw [handles, cxt]

theorem Reads.quiet {s t : St} (h : Reads s t) : Quiet s t where
  flash := h.flash
  rram := h.rram
  cxt := h.cxt
  imageHdr := h.imageHdr
  init := fun i => ⟨h.init.trans i, h.num⟩
  partition := partition_congr h.handles h.cxt
  reads := h.suffix
  ops := h.opFaults ▸ List.suffix_refl _

/-- `P` says which operations, with which outcome. -/
inductive Touches (e : Env) (P : Issuer → Op → Outcome → Prop) : St → List Event → St → Prop
  | quiet {s t : St} (q : Quiet s t) : Touches e P s [] t
  | note (s : St) (n : Note) : Touches e P s [.note n] s
  | op {s t : St} {who : Issuer} {op : Op} {out : Outcome} (allowed : P who op out)
      (possible : Possible e s op out) (ran : Ran s op out t) :
      Touches e P s [.op who op out] t
  | trans {s t u : St} {l l' : List Event} (h : Touches e P s l t) (h' : Touches e P t l' u) :
      Touches e P s (l ++ l') u

/-- The effect of an event on the devices. -/
def Event.run (s : St) : Event → St
  | .op _ o out => o.run out s
  | _ => s

/-- The devices after a trace. -/
def replay (s : St) (l : List Event) : St := l.foldl Event.run s

theorem replay_append (s : St) (l l' : List Event) :
    replay s (l ++ l') = replay (replay s l) l' := List.foldl_append

/-- The devices of two states agree. -/
def SameDevices (s t : St) : Prop := s.flash = t.flash ∧ s.rram = t.rram

theorem SameDevices.run {s t : St} (h : SameDevices s t) (w : Event) :
    SameDevices (w.run s) (w.run t) := by
  obtain ⟨hf, hr⟩ := h
  cases w with
  | op who op out => cases op <;> cases out <;> simp [SameDevices, Event.run, Op.run, hf, hr]
  | _ => exact ⟨hf, hr⟩

theorem SameDevices.replay {s t : St} (h : SameDevices s t) (l : List Event) :
    SameDevices (replay s l) (replay t l) := by
  induction l generalizing s t with
  | nil => exact h
  | cons w l ih => exact ih (h.run w)

theorem Ran.same {s t : St} {op : Op} {out : Outcome} (h : Ran s op out t) :
    SameDevices t (op.run out s) := by
  have := h.eq
  constructor
  · rw [this]
  · rw [this]

theorem Ran.quietly {s t : St} {op : Op} {out : Outcome} (h : Ran s op out t) :
    t = { s with flash := t.flash, rram := t.rram, opFaults := t.opFaults } := by
  have := h.eq
  rw [this]
  cases op <;> cases out <;> rfl

section Ran
variable {s t : St} {op : Op} {out : Outcome} (h : Ran s op out t)
include h

theorem Ran.cxt : t.cxt = s.cxt := by rw [h.quietly]
theorem Ran.imageHdr : t.imageHdr = s.imageHdr := by rw [h.quietly]
theorem Ran.handles : t.handles = s.handles := by rw [h.quietly]
theorem Ran.init : t.fuInitialized = s.fuInitialized := by rw [h.quietly]
theorem Ran.num : t.fwdSupportNum = s.fwdSupportNum := by rw [h.quietly]
theorem Ran.readFaults : t.readFaults = s.readFaults := by rw [h.quietly]
theorem Ran.partition : t.partition = s.partition := partition_congr h.handles h.cxt

end Ran

namespace Touches
variable {e : Env} {P Q : Issuer → Op → Outcome → Prop} {s t u : St} {l l' : List Event}

theorem refl (s : St) : Touches e P s [] s := .quiet (.refl s)

theorem mono (h : Touches e P s l t) (imp : ∀ who op out, P who op out → Q who op out) :
    Touches e Q s l t := by
  induction h with
  | quiet q => exact .quiet q
  | note s n => exact .note s n
  | op allowed possible ran => exact .op (imp _ _ _ allowed) possible ran
  | trans _ _ ih ih' => exact ih.trans ih'

theorem devices (h : Touches e P s l t) : SameDevices t (Fw.replay s l) := by
  induction h with
  | quiet q => exact ⟨q.flash, q.rram⟩
  | note s n => exact ⟨rfl, rfl⟩
  | op allowed possible ran => exact ran.same
  | trans _ _ ih ih' =>
    rw [replay_append]
    obtain ⟨hf, hr⟩ := ih'
    obtain ⟨kf, kr⟩ := ih.replay _
    exact ⟨hf.trans kf, hr.trans kr⟩

theorem cxt (h : Touches e P s l t) : t.cxt = s.cxt := by
  induction h with
  | quiet q => exact q.cxt
  | note s n => rfl
  | op allowed possible ran => exact ran.cxt
  | trans _ _ ih ih' => exact ih'.trans ih

theorem imageHdr (h : Touches e P s l t) : t.imageHdr = s.imageHdr := by
  induction h with
  | quiet q => exact q.imageHdr
  | note s n => rfl
  | op allowed possible ran => exact ran.imageHdr
  | trans _ _ ih ih' => exact ih'.trans ih

theorem partition (h : Touches e P s l t) : t.partition = s.partition := by
  induction h with
  | quiet q => exact q.partition
  | note s n => rfl
  | op allowed possible ran => exact ran.partition
  | trans _ _ ih ih' => exact ih'.trans ih

theorem init (h : Touches e P s l t) (hi : s.fuInitialized = true) :
    t.fuInitialized = true ∧ t.fwdSupportNum = s.fwdSupportNum := by
  induction h with
  | quiet q => exact q.init hi
  | note s n => exact ⟨hi, rfl⟩
  | op allowed possible ran => exact ⟨ran.init.trans hi, ran.num⟩
  | trans _ _ ih ih' =>
    obtain ⟨hi', hn⟩ := ih hi
    obtain ⟨hi'', hn'⟩ := ih' hi'
    exact ⟨hi'', hn'.trans hn⟩

theorem opFaults (h : Touches e P s l t) : t.opFaults <:+ s.opFaults := by
  induction h with
  | quiet q => exact q.ops
  | note s n => exact List.suffix_refl _
  | op allowed possible ran => exact ran.suffix
  | trans _ _ ih ih' => exact ih'.trans ih

theorem readFaults (h : Touches e P s l t) : t.readFaults <:+ s.readFaults := by
  induction h with
  | quiet q => exact q.reads
  | note s n => exact List.suffix_refl _
  | op allowed possible ran => exact ran.readFaults ▸ List.suffix_refl _
  | trans _ _ ih ih' => exact ih'.trans ih

/-- Every event is a note or an operation that is allowed. -/
theorem events (h : Touches e P s l t) :
    ∀ w ∈ l, (∃ n, w = .note n) ∨ ∃ who op out, w = .op who op out ∧ P who op out := by
  induction h with
  | quiet q => simp
  | note s n => simp
  | op allowed possible ran =>
    intro w hw
    rw [List.mem_singleton.mp hw]
    exact .inr ⟨_, _, _, rfl, allowed⟩
  | trans _ _ ih ih' =>
    intro w hw
    rcases List.mem_append.mp hw with hw | hw
    · exact ih w hw
    · exact ih' w hw

end Touches

end Qapp.Fw
