import Mathlib.Data.List.Basic

namespace Qapp.Pm

/-- What the shell commands, the timers and the power policy share: the count of the
suspend-to-RAM lock, and whether `bmps_timer` and `s2ram_timer` are running. -/
structure Power where
  lock : Nat
  bmpsRunning : Bool
  s2ramRunning : Bool
  slpCount : Int
  deriving DecidableEq, Repr

namespace Power

/-- The static values, before any initialization level runs. -/
def reset : Power where
  lock := 0
  bmpsRunning := false
  s2ramRunning := false
  slpCount := 1

/-- `pm_policy_state_lock_is_active`. -/
def isActive (p : Power) : Bool := p.lock != 0

/-- `pm_policy_state_lock_get`. -/
def get (p : Power) : Power := { p with lock := p.lock + 1 }

/-- `pm_policy_state_lock_put`; every caller has found the lock active. -/
def put (p : Power) : Power := { p with lock := p.lock - 1 }

/-- The guarded release the commands and the service timer share. -/
def putIfActive (p : Power) : Power := if p.isActive then p.put else p

end Power

/-- `my_app_init` does not let the device sleep at first. -/
def myAppInit (p : Power) : Power := p.get

inductive Failure
  | parse
  | netMgmt
  deriving DecidableEq, Repr

/-- `cmd_bmps_enable`. An argument that `shell_strtoul` does not parse is `none`; `net` says
that `NET_REQUEST_WIFI_PM_QCOM_SET_BMPS_ENABLE` fails. -/
def cmdBmpsEnable (enable time : Option UInt32) (net : Bool) (p : Power) :
    Except Failure Unit × Power :=
  match enable with
  | none => (.error .parse, p)
  | some enable =>
    let enable : UInt8 := enable.toUInt8
    match time with
    | none => (.error .parse, p)
    | some time =>
      -- the timer is started before the request, whatever `enable` is
      let p := if time ≠ 0 then { p with bmpsRunning := true } else p
      if net then (.error .netMgmt, p)
      else if enable ≠ 0 then (.ok (), p.putIfActive)
      else (.ok (), p)

/-- `bmps_timer_cb`, of a timer without a period. -/
def bmpsTimerCb (p : Power) : Power := { p.get with bmpsRunning := false }

/-- `cmd_set_s2ram`. `slp_count` is an `int`, and is assigned before `err` is looked at. -/
def cmdSetS2ram (slpTimeMs slpCount : Option UInt32) (p : Power) :
    Except Failure Unit × Power :=
  let p := { p with slpCount := (slpCount.getD 0).toInt32.toInt }
  match slpTimeMs, slpCount with
  | some slpTimeMs, some _ =>
    let p := if slpTimeMs ≠ 0 then { p with s2ramRunning := true } else p
    (.ok (), p.putIfActive)
  | _, _ => (.error .parse, p)

/-- `s2ram_timer_cb`, of a timer that runs on until it is stopped. -/
def s2ramTimerCb (p : Power) : Power :=
  let p := if p.slpCount > 0 then { p with slpCount := p.slpCount - 1 } else p
  if p.slpCount = 0 then { p.get with s2ramRunning := false } else p

/-- `pm_service_timer_cb`. -/
def pmServiceTimerCb (busy : Bool) (p : Power) : Power :=
  if busy then p else p.putIfActive

inductive Event
  | bmpsEnable (enable time : Option UInt32) (net : Bool)
  | bmpsExpiry
  | s2ram (slpTimeMs slpCount : Option UInt32)
  | s2ramExpiry
  | pmServiceExpiry (busy : Bool)
  deriving DecidableEq, Repr

/-- A timer expires only while it runs. -/
def Event.Enabled (p : Power) : Event → Prop
  | .bmpsExpiry => p.bmpsRunning
  | .s2ramExpiry => p.s2ramRunning
  | .bmpsEnable .. | .s2ram .. | .pmServiceExpiry _ => True

def Event.apply (p : Power) : Event → Power
  | .bmpsEnable enable time net => (cmdBmpsEnable enable time net p).2
  | .bmpsExpiry => bmpsTimerCb p
  | .s2ram slpTimeMs slpCount => (cmdSetS2ram slpTimeMs slpCount p).2
  | .s2ramExpiry => s2ramTimerCb p
  | .pmServiceExpiry busy => pmServiceTimerCb busy p

/-- An event and the state it finds. -/
structure Moment where
  before : Power
  event : Event
  deriving DecidableEq, Repr

namespace Moment

def after (m : Moment) : Power := m.event.apply m.before

/-- The expiry that a command's time ends with: `bmps_timer` at once, `s2ram_timer` when its
count is used up. -/
def Takes (m : Moment) : Prop :=
  match m.event with
  | .bmpsExpiry => True
  | .s2ramExpiry => m.before.slpCount = 0 ∨ m.before.slpCount = 1
  | _ => False

/-- A `bmps enable` or `s2ram` that asks for sleep and returns 0. -/
def Permits (m : Moment) : Prop :=
  match m.event with
  | .bmpsEnable (some enable) (some _) net => enable.toUInt8 ≠ 0 ∧ net = false
  | .s2ram (some _) (some _) => True
  | _ => False

/-- What ends in the guarded release. -/
def Releases (m : Moment) : Prop :=
  m.Permits ∨ m.event = .pmServiceExpiry false

instance (m : Moment) : Decidable m.Takes := by
  unfold Takes
  split <;> infer_instance

instance (m : Moment) : Decidable m.Permits := by
  unfold Permits
  split <;> infer_instance

instance (m : Moment) : Decidable m.Releases := by
  unfold Releases
  infer_instance

/-- The lock is held at most once; a command that permits sleep leaves it free, and the
expiry that ends the permission leaves it held. -/
structure Balanced (m : Moment) : Prop where
  bounded : m.after.lock ≤ 1
  freed : m.Permits → m.before.isActive → m.after.isActive = false
  held : m.Takes → m.after.lock = 1

end Moment

/-- The moments since boot, newest first, and the state after them. -/
inductive Run : List Moment → Power → Prop
  | boot : Run [] (myAppInit .reset)
  | step {past : List Moment} {p : Power} (run : Run past p) (event : Event)
      (enabled : event.Enabled p) :
      Run (⟨p, event⟩ :: past) (event.apply p)

/-- A release came after the last take; `my_app_init` is the first one. -/
def Released : List Moment → Bool
  | [] => false
  | m :: past =>
    if m.Takes then false
    else if m.Releases then true
    else Released past

/-- Every expiry that takes the lock comes after a release of what was taken before it. -/
def Alternating : List Moment → Prop
  | [] => True
  | m :: past => (m.Takes → Released past) ∧ Alternating past

namespace Moment

theorem takes_get {m : Moment} (takes : m.Takes) : m.after.lock = m.before.lock + 1 := by
  obtain ⟨p, event⟩ := m
  cases event with
  | bmpsExpiry => rfl
  | s2ramExpiry =>
    change p.slpCount = 0 ∨ p.slpCount = 1 at takes
    change (s2ramTimerCb p).lock = _
    obtain zero | one := takes
    · simp [s2ramTimerCb, zero, Power.get]
    · simp [s2ramTimerCb, one, Power.get]
  | bmpsEnable | s2ram | pmServiceExpiry => exact takes.elim

theorem putIfActive_lock (p : Power) : p.putIfActive.lock = p.lock - 1 := by
  unfold Power.putIfActive Power.isActive Power.put
  split
  · rfl
  · rename_i free
    simp at free
    simp [free]

theorem releases_put {m : Moment} (releases : m.Releases) :
    m.after.lock = m.before.lock - 1 := by
  obtain ⟨p, event⟩ := m
  obtain permits | service := releases
  · cases event with
    | bmpsEnable enable time net =>
      cases enable with
      | none => exact permits.elim
      | some enable =>
        cases time with
        | none => exact permits.elim
        | some time =>
          obtain ⟨nonzero, rfl⟩ : enable.toUInt8 ≠ 0 ∧ net = false := permits
          change (cmdBmpsEnable (some enable) (some time) false p).2.lock = p.lock - 1
          simp only [cmdBmpsEnable, nonzero, ne_eq, not_false_eq_true, ↓reduceIte,
            Bool.false_eq_true, putIfActive_lock]
          split <;> rfl
    | s2ram slpTimeMs slpCount =>
      cases slpTimeMs with
      | none => exact permits.elim
      | some slpTimeMs =>
        cases slpCount with
        | none => exact permits.elim
        | some slpCount =>
          change (cmdSetS2ram (some slpTimeMs) (some slpCount) p).2.lock = p.lock - 1
          simp only [cmdSetS2ram, putIfActive_lock]
          split <;> rfl
    | bmpsExpiry | s2ramExpiry | pmServiceExpiry => exact permits.elim
  · cases service
    exact putIfActive_lock p

/-- An event that neither takes nor releases leaves the count alone. -/
theorem keeps_lock {m : Moment} (takes : ¬ m.Takes) (releases : ¬ m.Releases) :
    m.after.lock = m.before.lock := by
  obtain ⟨p, event⟩ := m
  cases event with
  | bmpsEnable enable time net =>
    change (cmdBmpsEnable enable time net p).2.lock = p.lock
    unfold cmdBmpsEnable
    cases enable with
    | none => rfl
    | some enable =>
      cases time with
      | none => rfl
      | some time =>
        have timer : (if time ≠ 0 then { p with bmpsRunning := true } else p).lock = p.lock := by
          split <;> rfl
        cases net with
        | true => exact timer
        | false =>
          have off : enable.toUInt8 = 0 := by
            by_contra on
            exact releases (Or.inl ⟨on, rfl⟩)
          simpa [off] using timer
  | bmpsExpiry => exact absurd trivial takes
  | s2ram slpTimeMs slpCount =>
    cases slpTimeMs with
    | none => rfl
    | some slpTimeMs =>
      cases slpCount with
      | none => rfl
      | some slpCount => exact absurd (Or.inl trivial) releases
  | s2ramExpiry =>
    have more : ¬ (p.slpCount = 0 ∨ p.slpCount = 1) := takes
    change (s2ramTimerCb p).lock = p.lock
    unfold s2ramTimerCb
    by_cases counts : p.slpCount > 0
    · have left : ¬ p.slpCount - 1 = 0 := by omega
      simp [counts, left]
    · have left : ¬ p.slpCount = 0 := by omega
      simp [counts, left]
  | pmServiceExpiry busy =>
    cases busy with
    | true => rfl
    | false => exact absurd (Or.inr rfl) releases

/-- A moment is balanced when the lock was held at most once and, if it is taken, was free. -/
theorem balanced_of_free {m : Moment} (bounded : m.before.lock ≤ 1)
    (free : m.Takes → m.before.lock = 0) : m.Balanced where
  bounded := by
    by_cases takes : m.Takes
    · have taken := takes_get takes
      have was := free takes
      omega
    · by_cases releases : m.Releases
      · have put := releases_put releases
        omega
      · have kept := keeps_lock takes releases
        omega
  freed := by
    intro permits _
    have put := releases_put (Or.inl permits)
    have zero : m.after.lock = 0 := by omega
    simp [Power.isActive, zero]
  held := by
    intro takes
    have taken := takes_get takes
    have was := free takes
    omega

end Moment

/-- While takes and releases alternate, the count says which of the two came last. -/
theorem lock_of_alternating {past : List Moment} {p : Power} (run : Run past p)
    (alternating : Alternating past) :
    p.lock = if Released past then 0 else 1 := by
  induction run with
  | boot => rfl
  | @step past p run event enabled ih =>
    obtain ⟨order, older⟩ := alternating
    have before := ih older
    change (Moment.after ⟨p, event⟩).lock = _
    by_cases takes : Moment.Takes ⟨p, event⟩
    · have taken : _ = p.lock + 1 := Moment.takes_get takes
      rw [order takes] at before
      simp only [Released, takes, ↓reduceIte, Bool.false_eq_true]
      simp only [↓reduceIte] at before
      omega
    · by_cases releases : Moment.Releases ⟨p, event⟩
      · have put : _ = p.lock - 1 := Moment.releases_put releases
        have bounded : p.lock ≤ 1 := by
          rw [before]
          split <;> omega
        simp only [Released, takes, releases, ↓reduceIte]
        omega
      · have kept : _ = p.lock := Moment.keeps_lock takes releases
        simp only [Released, takes, releases, ↓reduceIte]
        omega

/-- The lock stays balanced in a run exactly when every expiry that takes it comes after a
release of what boot or the last such expiry took. -/
theorem lock_balanced_iff {past : List Moment} {p : Power} (run : Run past p) :
    (∀ m ∈ past, m.Balanced) ↔ Alternating past := by
  induction run with
  | boot => exact ⟨fun _ => trivial, fun _ m mem => absurd mem (List.not_mem_nil)⟩
  | @step past p run event enabled ih =>
    constructor
    · intro balanced
      have older : Alternating past := ih.mp fun m mem => balanced m (List.mem_cons_of_mem _ mem)
      have count := lock_of_alternating run older
      have newest := balanced ⟨p, event⟩ List.mem_cons_self
      apply And.intro _ older
      intro takes
      have taken := Moment.takes_get takes
      have one := newest.held takes
      have free : p.lock = 0 := by
        change _ = p.lock + 1 at taken
        omega
      by_contra held
      rw [if_neg held] at count
      omega
    · rintro ⟨order, older⟩ m mem
      have count := lock_of_alternating run older
      cases mem with
      | head =>
        apply Moment.balanced_of_free
        · change p.lock ≤ 1
          rw [count]
          split <;> omega
        · intro takes
          change p.lock = 0
          rw [count, if_pos (order takes)]
      | tail _ mem => exact ih.mpr older m mem

/-- `s2ram 50 1`, and the expiry that ends it. -/
theorem lock_balanced_s2ram :
    Moment.Balanced ⟨⟨0, false, true, 1⟩, .s2ramExpiry⟩ ∧
      Moment.Balanced ⟨⟨1, false, false, 1⟩, .s2ram (some 50) (some 1)⟩ := by
  have first := Run.step .boot (.s2ram (some 50) (some 1)) trivial
  have second := Run.step first .s2ramExpiry rfl
  have balanced := (lock_balanced_iff second).mpr
    ⟨fun _ => by decide, fun takes => takes.elim, trivial⟩
  exact ⟨balanced _ (.head _), balanced _ (.tail _ (.head _))⟩

/-- `bmps enable 0 100` starts the timer without a release, and its expiry takes the lock
that boot took. -/
theorem lock_taken_twice :
    Run [⟨⟨1, true, false, 1⟩, .bmpsExpiry⟩,
        ⟨⟨1, false, false, 1⟩, .bmpsEnable (some 0) (some 100) false⟩] ⟨2, false, false, 1⟩ ∧
      ¬ Moment.Balanced ⟨⟨1, true, false, 1⟩, .bmpsExpiry⟩ := by
  constructor
  · have first := Run.step .boot (.bmpsEnable (some 0) (some 100) false) trivial
    exact Run.step first .bmpsExpiry rfl
  · intro balanced
    exact absurd balanced.bounded (by decide)

end Qapp.Pm
