import Mathlib.Logic.Function.Basic

namespace Qapp.Pm

/-- A kernel timer, in ticks; a period of 0 is `K_NO_WAIT`. -/
structure KTimer where
  running : Bool
  remaining : Nat
  period : Nat
  deriving DecidableEq, Repr

namespace KTimer

/-- `k_timer_start`. -/
def start (duration period : Nat) : KTimer := ⟨true, duration, period⟩

/-- `k_timer_stop`, which leaves the period. -/
def stop (t : KTimer) : KTimer := ⟨false, 0, t.period⟩

/-- `k_timer_remaining_ticks`. -/
def remainingTicks (t : KTimer) : Nat := if t.running then t.remaining else 0

/-- Time that passes: a timer that expires stops, or goes on with its period. -/
def elapse (ticks : Nat) (t : KTimer) : KTimer :=
  if !t.running then t
  else if ticks < t.remaining then { t with remaining := t.remaining - ticks }
  else if t.period = 0 then t.stop
  else { t with remaining := t.period - (ticks - t.remaining) % t.period }

end KTimer

variable {Id : Type} [DecidableEq Id]

/-- `struct pm_managed_timer`. -/
structure ManagedTimer (Id : Type) where
  timer : Id
  suspendable : Bool
  autoRestart : Bool
  savedRemaining : Nat
  savedPeriod : Nat
  wasRunning : Bool
  deriving DecidableEq, Repr

/-- The managed list and the kernel's timers. `pm_service_timer` belongs to the hooks
themselves, and nothing registers it. -/
structure Manager (Id : Type) where
  managed : List (ManagedTimer Id)
  timers : Id → KTimer
  serviceRunning : Bool
  osDefaultTasksSuspended : Bool

/-- What an application does to a timer. -/
inductive AppOp (Id : Type)
  | start (timer : Id) (duration period : Nat)
  | stop (timer : Id)
  deriving DecidableEq, Repr

def AppOp.timer : AppOp Id → Id
  | .start timer _ _ => timer
  | .stop timer => timer

def AppOp.effect : AppOp Id → KTimer → KTimer
  | .start _ duration period, _ => .start duration period
  | .stop _, t => t.stop

def AppOp.apply (timers : Id → KTimer) (op : AppOp Id) : Id → KTimer :=
  Function.update timers op.timer (op.effect (timers op.timer))

/-- The loop of `on_idle_pre_sleep`. -/
def suspendTimers : List (ManagedTimer Id) → (Id → KTimer) →
    List (ManagedTimer Id) × (Id → KTimer)
  | [], timers => ([], timers)
  | mt :: rest, timers =>
    if !mt.suspendable then
      let (rest, timers) := suspendTimers rest timers
      (mt :: rest, timers)
    else
      let saved := { mt with
        savedRemaining := (timers mt.timer).remainingTicks
        savedPeriod := (timers mt.timer).period }
      if (timers mt.timer).running then
        let (rest, timers) :=
          suspendTimers rest (Function.update timers mt.timer (timers mt.timer).stop)
        ({ saved with wasRunning := true } :: rest, timers)
      else
        let (rest, timers) := suspendTimers rest timers
        ({ saved with wasRunning := false } :: rest, timers)

/-- The loop of `on_idle_post_sleep`. -/
def restoreTimers : List (ManagedTimer Id) → (Id → KTimer) →
    List (ManagedTimer Id) × (Id → KTimer)
  | [], timers => ([], timers)
  | mt :: rest, timers =>
    if !mt.wasRunning then
      let (rest, timers) := restoreTimers rest timers
      (mt :: rest, timers)
    else
      let timers :=
        if mt.autoRestart then
          Function.update timers mt.timer (.start mt.savedRemaining mt.savedPeriod)
        else timers
      let (rest, timers) := restoreTimers rest timers
      ({ mt with wasRunning := false } :: rest, timers)

namespace Manager

/-- `pm_timer_register`. -/
def register (timer : Id) (suspendable autoRestart : Bool) (m : Manager Id) : Manager Id :=
  { m with managed := m.managed ++ [⟨timer, suspendable, autoRestart, 0, 0, false⟩] }

/-- `pm_timer_unregister`: the first entry of the timer. -/
def unregister (timer : Id) (m : Manager Id) : Manager Id :=
  { m with managed := m.managed.eraseP fun mt => mt.timer = timer }

/-- `on_idle_pre_sleep`; `autoSleep` is `CONFIG_QPM_AUTO_SLEEP`. -/
def onIdlePreSleep (autoSleep lockActive anyBusy : Bool) (m : Manager Id) : Manager Id :=
  if !lockActive && !anyBusy then
    let (managed, timers) := suspendTimers m.managed m.timers
    { managed := managed, timers := timers
      serviceRunning := false
      osDefaultTasksSuspended := true }
  else if autoSleep then { m with serviceRunning := true }
  else m

/-- `on_idle_post_sleep`. -/
def onIdlePostSleep (m : Manager Id) : Manager Id :=
  let (managed, timers) := restoreTimers m.managed m.timers
  { m with managed := managed, timers := timers, osDefaultTasksSuspended := false }

def apps (ops : List (AppOp Id)) (m : Manager Id) : Manager Id :=
  { m with timers := ops.foldl AppOp.apply m.timers }

end Manager

/-- What happens between two passes of `idle`, and one pass with what interrupts do between
its two hooks. -/
inductive IdleEvent (Id : Type)
  | app (op : AppOp Id)
  | elapse (ticks : Nat)
  | register (timer : Id) (suspendable autoRestart : Bool)
  | unregister (timer : Id)
  | serviceExpiry
  | idle (lockActive anyBusy : Bool) (inside : List (AppOp Id))
  deriving DecidableEq, Repr

def IdleEvent.run (autoSleep : Bool) (m : Manager Id) : IdleEvent Id → Manager Id
  | .app op => m.apps [op]
  | .elapse ticks => { m with timers := fun timer => (m.timers timer).elapse ticks }
  | .register timer suspendable autoRestart => m.register timer suspendable autoRestart
  | .unregister timer => m.unregister timer
  | .serviceExpiry => { m with serviceRunning := false }
  | .idle lockActive anyBusy inside =>
    ((m.onIdlePreSleep autoSleep lockActive anyBusy).apps inside).onIdlePostSleep

structure IdleMoment (Id : Type) where
  before : Manager Id
  event : IdleEvent Id

/-- The moments since boot, newest first, and the state after them. -/
inductive IdleRun (autoSleep : Bool) : List (IdleMoment Id) → Manager Id → Prop
  | boot (timers : Id → KTimer) : IdleRun autoSleep [] ⟨[], timers, false, false⟩
  | step {past : List (IdleMoment Id)} {m : Manager Id} (run : IdleRun autoSleep past m)
      (event : IdleEvent Id) :
      IdleRun autoSleep (⟨m, event⟩ :: past) (event.run autoSleep m)

/-- What the operations make of one timer. -/
def settled (ops : List (AppOp Id)) (timer : Id) (t : KTimer) : KTimer :=
  ops.foldl (fun t op => if op.timer = timer then op.effect t else t) t

/-- The entry whose turn in the list it is to stop the timer. -/
def firstSuspendable (timer : Id) (managed : List (ManagedTimer Id)) :
    Option (ManagedTimer Id) :=
  managed.find? fun mt => mt.suspendable && decide (mt.timer = timer)

/-- After a pass of `idle`, a suspendable auto-restart timer is as the operations between the
hooks left it, or as it was. -/
def IdleMoment.Transparent (autoSleep : Bool) (m : IdleMoment Id) : Prop :=
  match m.event with
  | .idle _ _ inside =>
    ∀ mt ∈ m.before.managed, mt.suspendable → mt.autoRestart →
      (m.event.run autoSleep m.before).timers mt.timer =
        settled inside mt.timer (m.before.timers mt.timer)
  | _ => True

/-- If the pass stops a running timer to restart it, the operations between the hooks leave
that timer as it was; if the entry that stops it does not restart it, there is one. -/
def IdleMoment.Undisturbed (m : IdleMoment Id) : Prop :=
  match m.event with
  | .idle lockActive anyBusy inside =>
    lockActive = false → anyBusy = false →
      ∀ mt ∈ m.before.managed, mt.suspendable → mt.autoRestart →
        (m.before.timers mt.timer).running →
          ∀ first, firstSuspendable mt.timer m.before.managed = some first →
            if first.autoRestart then
              settled inside mt.timer (m.before.timers mt.timer) = m.before.timers mt.timer
            else ∃ op ∈ inside, op.timer = mt.timer
  | _ => True

/-- Between two passes no snapshot is pending. -/
def Manager.Rested (m : Manager Id) : Prop := ∀ mt ∈ m.managed, mt.wasRunning = false

section Loops

theorem apply_timer (timers : Id → KTimer) (op : AppOp Id) (timer : Id) :
    op.apply timers timer = if op.timer = timer then op.effect (timers timer) else timers timer := by
  unfold AppOp.apply
  by_cases same : op.timer = timer
  · subst same
    simp
  · rw [Function.update_of_ne (Ne.symm same), if_neg same]

theorem apps_timer (ops : List (AppOp Id)) (timers : Id → KTimer) (timer : Id) :
    ops.foldl AppOp.apply timers timer = settled ops timer (timers timer) := by
  induction ops generalizing timers with
  | nil => rfl
  | cons op ops ih =>
    change ops.foldl AppOp.apply (op.apply timers) timer =
      settled ops timer (if op.timer = timer then op.effect (timers timer) else timers timer)
    rw [ih, apply_timer]

theorem settled_untouched {ops : List (AppOp Id)} {timer : Id} (t : KTimer)
    (untouched : ¬ ∃ op ∈ ops, op.timer = timer) : settled ops timer t = t := by
  induction ops with
  | nil => rfl
  | cons op ops ih =>
    have other : op.timer ≠ timer := fun same => untouched ⟨op, List.mem_cons_self, same⟩
    change settled ops timer (if op.timer = timer then op.effect t else t) = t
    rw [if_neg other]
    exact ih fun ⟨op, mem, same⟩ => untouched ⟨op, List.mem_cons_of_mem _ mem, same⟩

/-- Once an operation touches the timer, only its period can tell what it was before. -/
theorem settled_touched {ops : List (AppOp Id)} {timer : Id} {s t : KTimer}
    (period : s.period = t.period) (touched : ∃ op ∈ ops, op.timer = timer) :
    settled ops timer s = settled ops timer t := by
  obtain ⟨op, mem, same⟩ := touched
  induction ops generalizing s t with
  | nil => exact absurd mem List.not_mem_nil
  | cons head ops ih =>
    change settled ops timer (if head.timer = timer then head.effect s else s) =
      settled ops timer (if head.timer = timer then head.effect t else t)
    by_cases here : head.timer = timer
    · have effect : head.effect s = head.effect t := by
        cases head with
        | start => rfl
        | stop => exact congrArg (KTimer.mk false 0) period
      rw [if_pos here, if_pos here, effect]
    · rw [if_neg here, if_neg here]
      cases mem with
      | head => exact absurd same here
      | tail _ mem => exact ih period mem

/-- The first loop stops the timers that run and have a suspendable entry. -/
theorem suspendTimers_timer (managed : List (ManagedTimer Id)) (timers : Id → KTimer)
    (timer : Id) :
    (suspendTimers managed timers).2 timer =
      if (timers timer).running ∧ (firstSuspendable timer managed).isSome then
        (timers timer).stop
      else timers timer := by
  induction managed generalizing timers with
  | nil => simp [suspendTimers, firstSuspendable]
  | cons mt rest ih =>
    unfold suspendTimers firstSuspendable
    cases suspendable : mt.suspendable with
    | false =>
      simp only [Bool.not_false, ↓reduceIte, List.find?_cons, suspendable, Bool.false_and]
      exact ih timers
    | true =>
      by_cases same : mt.timer = timer
      · subst same
        cases running : (timers mt.timer).running with
        | true =>
          simp only [Bool.not_true, Bool.false_eq_true, ↓reduceIte, List.find?_cons,
            suspendable, decide_true, Bool.and_self, Option.isSome_some, and_self]
          rw [ih, Function.update_self, if_neg (by simp [KTimer.stop])]
        | false =>
          simp only [Bool.not_true, Bool.false_eq_true, ↓reduceIte, false_and]
          rw [ih, if_neg (by simp [running])]
      · cases running : (timers mt.timer).running with
        | true =>
          simp only [Bool.not_true, Bool.false_eq_true, ↓reduceIte, List.find?_cons,
            suspendable, same, decide_false, Bool.and_false]
          rw [ih, Function.update_of_ne (Ne.symm same)]
          rfl
        | false =>
          simp only [Bool.not_true, Bool.false_eq_true, ↓reduceIte, List.find?_cons,
            suspendable, same, decide_false, Bool.and_false]
          exact ih timers

/-- The second loop restarts, with what the first one found, the timers that it stopped and
whose first suspendable entry asks for it. -/
theorem restoreTimers_timer {managed : List (ManagedTimer Id)}
    (rested : ∀ mt ∈ managed, mt.wasRunning = false) (found timers : Id → KTimer) (timer : Id) :
    (restoreTimers (suspendTimers managed found).1 timers).2 timer =
      if (found timer).running ∧
          ∃ first, firstSuspendable timer managed = some first ∧ first.autoRestart then
        found timer
      else timers timer := by
  induction managed generalizing found timers with
  | nil => simp [suspendTimers, restoreTimers, firstSuspendable]
  | cons mt rest ih =>
    have rested_rest : ∀ mt ∈ rest, mt.wasRunning = false :=
      fun mt mem => rested mt (List.mem_cons_of_mem _ mem)
    have pending := rested mt List.mem_cons_self
    cases suspendable : mt.suspendable with
    | false =>
      have skip : firstSuspendable timer (mt :: rest) = firstSuspendable timer rest := by
        simp [firstSuspendable, suspendable]
      rw [skip, ← ih rested_rest]
      simp [suspendTimers, restoreTimers, suspendable, pending]
    | true =>
      by_cases same : mt.timer = timer
      · subst same
        have here : firstSuspendable mt.timer (mt :: rest) = some mt := by
          simp [firstSuspendable, suspendable]
        simp only [here, Option.some.injEq, exists_eq_left']
        cases running : (found mt.timer).running with
        | true =>
          have whole : KTimer.start (found mt.timer).remainingTicks (found mt.timer).period =
              found mt.timer := by
            simp only [KTimer.remainingTicks, running, ↓reduceIte, KTimer.start]
            rw [← running]
          have stopped : ¬ (((Function.update found mt.timer (found mt.timer).stop) mt.timer).running ∧
              ∃ first, firstSuspendable mt.timer rest = some first ∧ first.autoRestart) := by
            simp [KTimer.stop]
          simp only [suspendTimers, suspendable, running, Bool.not_true, Bool.false_eq_true,
            ↓reduceIte, restoreTimers, whole, true_and]
          rw [ih rested_rest, if_neg stopped]
          split
          · exact Function.update_self ..
          · rfl
        | false =>
          have idle : ¬ ((found mt.timer).running ∧
              ∃ first, firstSuspendable mt.timer rest = some first ∧ first.autoRestart) := by
            simp [running]
          simp only [suspendTimers, suspendable, running, Bool.not_true, Bool.false_eq_true,
            ↓reduceIte, restoreTimers, Bool.not_false, false_and]
          rw [ih rested_rest, if_neg idle]
      · have skip : firstSuspendable timer (mt :: rest) = firstSuspendable timer rest := by
          simp [firstSuspendable, same]
        rw [skip]
        cases running : (found mt.timer).running with
        | true =>
          simp only [suspendTimers, suspendable, running, Bool.not_true, Bool.false_eq_true,
            ↓reduceIte, restoreTimers]
          rw [ih rested_rest, Function.update_of_ne (Ne.symm same)]
          congr 1
          split
          · exact Function.update_of_ne (Ne.symm same) ..
          · rfl
        | false =>
          simp only [suspendTimers, suspendable, running, Bool.not_true, Bool.false_eq_true,
            ↓reduceIte, restoreTimers, Bool.not_false]
          exact ih rested_rest found timers

/-- Where no snapshot is pending the second loop does nothing. -/
theorem restoreTimers_rested {managed : List (ManagedTimer Id)}
    (rested : ∀ mt ∈ managed, mt.wasRunning = false) (timers : Id → KTimer) :
    restoreTimers managed timers = (managed, timers) := by
  induction managed with
  | nil => rfl
  | cons mt rest ih =>
    have pending := rested mt List.mem_cons_self
    simp [restoreTimers, pending, ih fun mt mem => rested mt (List.mem_cons_of_mem _ mem)]

theorem restoreTimers_rests (managed : List (ManagedTimer Id)) (timers : Id → KTimer) :
    ∀ mt ∈ (restoreTimers managed timers).1, mt.wasRunning = false := by
  induction managed generalizing timers with
  | nil => exact fun _ mem => absurd mem List.not_mem_nil
  | cons mt rest ih =>
    intro other mem
    unfold restoreTimers at mem
    cases pending : mt.wasRunning with
    | false =>
      simp only [pending, Bool.not_false, ↓reduceIte] at mem
      cases mem with
      | head => exact pending
      | tail _ mem => exact ih timers other mem
    | true =>
      simp only [pending, Bool.not_true, Bool.false_eq_true, ↓reduceIte] at mem
      cases mem with
      | head => rfl
      | tail _ mem => exact ih _ other mem

end Loops

theorem IdleEvent.run_rested {m : Manager Id} (rested : m.Rested) (autoSleep : Bool)
    (event : IdleEvent Id) : (event.run autoSleep m).Rested := by
  cases event with
  | app op => exact rested
  | elapse ticks => exact rested
  | register timer suspendable autoRestart =>
    intro mt mem
    obtain old | new := List.mem_append.mp mem
    · exact rested mt old
    · obtain rfl := List.mem_singleton.mp new
      rfl
  | unregister timer => exact fun mt mem => rested mt (List.mem_of_mem_eraseP mem)
  | serviceExpiry => exact rested
  | idle lockActive anyBusy inside => exact restoreTimers_rests _ _

theorem IdleRun.rested {autoSleep : Bool} {past : List (IdleMoment Id)} {m : Manager Id}
    (run : IdleRun autoSleep past m) : m.Rested := by
  induction run with
  | boot timers => exact fun _ mem => absurd mem List.not_mem_nil
  | step _ event ih => exact IdleEvent.run_rested ih autoSleep event

/-- A pass that does not suspend leaves the timers to the operations. -/
theorem idle_awake {m : Manager Id} (rested : m.Rested) (autoSleep : Bool)
    {lockActive anyBusy : Bool} (awake : ¬ (lockActive = false ∧ anyBusy = false))
    (inside : List (AppOp Id)) (timer : Id) :
    ((IdleEvent.idle lockActive anyBusy inside).run autoSleep m).timers timer =
      settled inside timer (m.timers timer) := by
  have branch : (!lockActive && !anyBusy) = false := by
    cases lockActive <;> cases anyBusy <;> simp_all
  have kept : (m.onIdlePreSleep autoSleep lockActive anyBusy).managed = m.managed ∧
      (m.onIdlePreSleep autoSleep lockActive anyBusy).timers = m.timers := by
    unfold Manager.onIdlePreSleep
    rw [if_neg (by simp [branch])]
    split <;> exact ⟨rfl, rfl⟩
  change (restoreTimers (m.onIdlePreSleep autoSleep lockActive anyBusy).managed
    (inside.foldl AppOp.apply (m.onIdlePreSleep autoSleep lockActive anyBusy).timers)).2 timer = _
  rw [kept.1, kept.2, restoreTimers_rested rested]
  exact apps_timer inside m.timers timer

/-- A pass that suspends gives back what it stopped, whatever was done to it in between. -/
theorem idle_asleep {m : Manager Id} (rested : m.Rested) (autoSleep : Bool)
    (inside : List (AppOp Id)) (timer : Id) :
    ((IdleEvent.idle false false inside).run autoSleep m).timers timer =
      if (m.timers timer).running ∧
          ∃ first, firstSuspendable timer m.managed = some first ∧ first.autoRestart then
        m.timers timer
      else settled inside timer ((suspendTimers m.managed m.timers).2 timer) := by
  change (restoreTimers (suspendTimers m.managed m.timers).1
    (inside.foldl AppOp.apply (suspendTimers m.managed m.timers).2)).2 timer = _
  rw [restoreTimers_timer rested, apps_timer]

theorem firstSuspendable_isSome {managed : List (ManagedTimer Id)} {mt : ManagedTimer Id}
    (mem : mt ∈ managed) (suspendable : mt.suspendable) :
    ∃ first, firstSuspendable mt.timer managed = some first := by
  apply Option.isSome_iff_exists.mp
  apply List.find?_isSome.mpr
  exact ⟨mt, mem, by simp [suspendable]⟩

/-- One timer over one pass that suspends. -/
theorem transparent_asleep_iff {m : Manager Id} (rested : m.Rested) (autoSleep : Bool)
    (inside : List (AppOp Id)) {mt first : ManagedTimer Id}
    (found : firstSuspendable mt.timer m.managed = some first) :
    ((IdleEvent.idle false false inside).run autoSleep m).timers mt.timer =
        settled inside mt.timer (m.timers mt.timer) ↔
      ((m.timers mt.timer).running →
        if first.autoRestart then
          settled inside mt.timer (m.timers mt.timer) = m.timers mt.timer
        else ∃ op ∈ inside, op.timer = mt.timer) := by
  rw [idle_asleep rested, suspendTimers_timer]
  simp only [found, Option.some.injEq, exists_eq_left', Option.isSome_some, and_true]
  cases running : (m.timers mt.timer).running with
  | false => simp
  | true =>
    cases restarts : first.autoRestart with
    | true =>
      simp only [true_and, ↓reduceIte, true_imp_iff]
      exact eq_comm
    | false =>
      simp only [Bool.false_eq_true, and_false, ↓reduceIte, true_imp_iff]
      constructor
      · intro same
        by_contra untouched
        rw [settled_untouched _ untouched, settled_untouched _ untouched] at same
        have stopped := congrArg KTimer.running same
        rw [running] at stopped
        cases stopped
      · exact settled_touched rfl

theorem IdleMoment.transparent_iff {m : IdleMoment Id} (rested : m.before.Rested)
    (autoSleep : Bool) : m.Transparent autoSleep ↔ m.Undisturbed := by
  obtain ⟨before, event⟩ := m
  cases event with
  | idle lockActive anyBusy inside =>
    by_cases asleep : lockActive = false ∧ anyBusy = false
    · obtain ⟨rfl, rfl⟩ := asleep
      constructor
      · intro transparent _ _ mt mem suspendable restarts running first found
        exact (transparent_asleep_iff rested autoSleep inside found).mp
          (transparent mt mem suspendable restarts) running
      · intro undisturbed mt mem suspendable restarts
        obtain ⟨first, found⟩ := firstSuspendable_isSome mem suspendable
        apply (transparent_asleep_iff rested autoSleep inside found).mpr
        intro running
        exact undisturbed rfl rfl mt mem suspendable restarts running first found
    · constructor
      · intro _ free idle
        exact absurd ⟨free, idle⟩ asleep
      · intro _ mt _ _ _
        exact idle_awake rested autoSleep asleep inside mt.timer
  | app | elapse | register | unregister | serviceExpiry => exact Iff.rfl

/-- In a run, sleep is transparent to the suspendable auto-restart timers exactly when the
operations between the hooks leave the timers alone that the hooks stop and restart. -/
theorem sleep_transparent_iff {autoSleep : Bool} {past : List (IdleMoment Id)} {m : Manager Id}
    (run : IdleRun autoSleep past m) :
    (∀ moment ∈ past, moment.Transparent autoSleep) ↔ ∀ moment ∈ past, moment.Undisturbed := by
  induction run with
  | boot timers => exact ⟨fun _ _ mem => absurd mem List.not_mem_nil,
      fun _ _ mem => absurd mem List.not_mem_nil⟩
  | step run event ih =>
    rw [List.forall_mem_cons, List.forall_mem_cons, ih,
      IdleMoment.transparent_iff run.rested autoSleep]

/-- A pass between whose hooks another timer is started. -/
theorem sleep_transparent_other :
    IdleMoment.Transparent true (⟨⟨[⟨0, true, true, 0, 0, false⟩], fun _ => ⟨true, 40, 10⟩,
        false, false⟩, .idle false false [.start 1 5 0]⟩ : IdleMoment Nat) ∧
      IdleMoment.Transparent true
        (⟨⟨[], fun _ => ⟨true, 40, 10⟩, false, false⟩, .register 0 true true⟩ : IdleMoment Nat) := by
  have boot : IdleRun true [] (⟨[], fun _ => ⟨true, 40, 10⟩, false, false⟩ : Manager Nat) :=
    .boot _
  have run := IdleRun.step (.step boot (.register 0 true true)) (.idle false false [.start 1 5 0])
  have all := (sleep_transparent_iff run).mpr (by
    rw [List.forall_mem_cons, List.forall_mem_singleton]
    apply And.intro _ trivial
    intro _ _ mt mem _ _ _ first found
    obtain rfl := List.mem_singleton.mp mem
    cases found
    rfl)
  exact ⟨all _ (.head _), all _ (.tail _ (.head _))⟩

/-- A timer that an interrupt stops between the hooks runs again after them. -/
theorem stopped_timer_restarts :
    ∃ past, ∃ m : Manager Nat, IdleRun true past m ∧
      past.map IdleMoment.event = [.idle false false [.stop 0], .register 0 true true] ∧
      m.timers 0 = ⟨true, 40, 10⟩ ∧ ¬ ∀ moment ∈ past, moment.Transparent true := by
  have boot : IdleRun true [] (⟨[], fun _ => ⟨true, 40, 10⟩, false, false⟩ : Manager Nat) :=
    .boot _
  have run := IdleRun.step (.step boot (.register 0 true true)) (.idle false false [.stop 0])
  apply Exists.intro _
  apply Exists.intro _
  apply And.intro run
  apply And.intro rfl
  apply And.intro rfl
  intro transparent
  have newest := transparent _ List.mem_cons_self _ (List.mem_singleton_self _) rfl rfl
  exact absurd newest (by decide)

end Qapp.Pm
