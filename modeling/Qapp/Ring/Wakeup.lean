import Mathlib.Tactic.Common

/-!
# Interrupts and the work queue

`ring_rx_handler` submits one work item for each ring to the queue of the FreeRTOS
port. Its task takes one item at a time and runs `rx_work_handler` for that ring.
-/

namespace Qapp.RingWork

/-- Length given to `xQueueCreate`. -/
def queueLength : Nat := 16

/-- What `work_queue_task` is doing with which ring's item. -/
inductive Task
  | waiting
  | received (ring : Nat)
  | running (ring : Nat)
  deriving DecidableEq

inductive Event
  /-- A call of `ring_rx_handler`. -/
  | interrupt
  /-- The slave advances `rx_wr_idx` of a ring. -/
  | publish (ring : Nat)
  /-- `rx_work_handler` starts for a ring. -/
  | run (ring : Nat)
  deriving DecidableEq

structure State where
  queue : List Nat
  task : Task
  trace : List Event

def State.start : State := ⟨[], .waiting, []⟩

/-- `qc_osal_work_submit`, whose result the handler ignores. -/
def submit (queue : List Nat) (ring : Nat) : List Nat :=
  if queue.length < queueLength then queue ++ [ring] else queue

/-- `ring_rx_handler` with a registered callback. The task does not run meanwhile. -/
def ringRxHandler (numRings : Nat) (s : State) : State :=
  { s with
    queue := (List.range numRings).foldl submit s.queue
    trace := s.trace ++ [.interrupt] }

/-- The next step of `work_queue_task`. -/
def workQueueTask (s : State) : State :=
  match s.task with
  | .waiting =>
    match s.queue with
    | [] => s
    | ring :: rest => { s with queue := rest, task := .received ring }
  | .received ring => { s with task := .running ring, trace := s.trace ++ [.run ring] }
  | .running _ => { s with task := .waiting }

/-- Who moves next. -/
inductive Cmd
  | interrupt
  | slave (ring : Nat)
  | task
  deriving DecidableEq

def State.step (numRings : Nat) (s : State) : Cmd → State
  | .interrupt => ringRxHandler numRings s
  | .slave ring => { s with trace := s.trace ++ [.publish ring] }
  | .task => workQueueTask s

def State.run (numRings : Nat) (s : State) (cmds : List Cmd) : State :=
  cmds.foldl (State.step numRings) s

/-- Nothing is left to do: the queue is empty and its task waits. -/
def State.Idle (s : State) : Prop := s.queue = [] ∧ s.task = .waiting

/-- Every call of `ring_rx_handler`, the last one included, is followed by a run for
every ring. -/
def Woken (numRings : Nat) (s : State) : Prop :=
  ∀ ring < numRings, ∀ before after, s.trace = before ++ .interrupt :: after →
    .run ring ∈ after

/-- Every message whose publication was followed by an interrupt is announced. -/
def Announced (numRings : Nat) (s : State) : Prop :=
  ∀ ring < numRings, ∀ before after, s.trace = before ++ .publish ring :: after →
    .interrupt ∈ after → .run ring ∈ after

/-- The ring's handler will be started without another submission. -/
def State.Due (s : State) (ring : Nat) : Prop := ring ∈ s.queue ∨ s.task = .received ring

/-- No submission of an interrupt is dropped unless the ring's handler is due. -/
def Covered (numRings : Nat) (s : State) : Prop :=
  ∀ ring < numRings, s.queue.length + ring < queueLength ∨ s.Due ring

/-- All interrupts of a run come when they are covered. -/
def Covers (numRings : Nat) : State → List Cmd → Prop
  | _, [] => True
  | s, cmd :: cmds =>
    (cmd = .interrupt → Covered numRings s) ∧ Covers numRings (s.step numRings cmd) cmds

instance (s : State) (ring : Nat) : Decidable (s.Due ring) := inferInstanceAs (Decidable (_ ∨ _))

instance (numRings : Nat) (s : State) : Decidable (Covered numRings s) :=
  inferInstanceAs (Decidable (∀ ring < numRings, _))

instance decidableCovers (numRings : Nat) : (s : State) → (cmds : List Cmd) →
    Decidable (Covers numRings s cmds)
  | _, [] => inferInstanceAs (Decidable True)
  | s, cmd :: cmds =>
    have := decidableCovers numRings (s.step numRings cmd) cmds
    inferInstanceAs (Decidable (_ ∧ _))

/-! ## Submitting -/

theorem submit_mem {queue : List Nat} {ring r : Nat} (h : r ∈ queue) : r ∈ submit queue ring := by
  unfold submit
  split
  · exact List.mem_append_left _ h
  · exact h

theorem submit_self {queue : List Nat} {ring : Nat} (room : queue.length < queueLength) :
    ring ∈ submit queue ring := by
  unfold submit
  rw [if_pos room]
  exact List.mem_append_right _ (List.mem_singleton_self _)

theorem mem_submit {queue : List Nat} {ring r : Nat} (h : r ∈ submit queue ring) :
    r ∈ queue ∨ r = ring ∧ queue.length < queueLength := by
  unfold submit at h
  split at h
  · rename_i room
    rcases List.mem_append.mp h with h | h
    · exact .inl h
    · exact .inr ⟨List.mem_singleton.mp h, room⟩
  · exact .inl h

theorem length_submit (queue : List Nat) (ring : Nat) :
    (submit queue ring).length = if queue.length < queueLength then queue.length + 1
      else queue.length := by
  unfold submit
  split <;> simp

/-- The submissions in ring order take up what room there is. -/
theorem length_submits (queue : List Nat) (n : Nat) :
    ((List.range n).foldl submit queue).length = max queue.length
      (min (queue.length + n) queueLength) := by
  induction n with
  | zero =>
    simp only [List.range_zero, List.foldl_nil]
    omega
  | succ n ih =>
    rw [List.range_succ, List.foldl_append, List.foldl_cons, List.foldl_nil, length_submit, ih]
    split <;> omega

/-- After the submissions: what was queued, and the rings there was room for. -/
theorem mem_submits {queue : List Nat} {n ring : Nat} :
    ring ∈ (List.range n).foldl submit queue ↔
      ring ∈ queue ∨ ring < n ∧ queue.length + ring < queueLength := by
  induction n with
  | zero => simp
  | succ n ih =>
    rw [List.range_succ, List.foldl_append, List.foldl_cons, List.foldl_nil]
    have length := length_submits queue n
    constructor
    · intro h
      rcases mem_submit h with h | ⟨rfl, room⟩
      · rcases ih.mp h with h | h
        · exact .inl h
        · exact .inr ⟨by omega, h.2⟩
      · rw [length] at room
        exact .inr ⟨by omega, by omega⟩
    · rintro (h | ⟨lt, room⟩)
      · exact submit_mem (ih.mpr (.inl h))
      · by_cases old : ring < n
        · exact submit_mem (ih.mpr (.inr ⟨old, room⟩))
        · obtain rfl : ring = n := by omega
          exact submit_self (by omega)

/-! ## Runs whose interrupts are covered -/

/-- For every ring and every interrupt: its handler has been started since, or is due. -/
def Pending (numRings : Nat) (s : State) : Prop :=
  ∀ ring < numRings, ∀ before after, s.trace = before ++ .interrupt :: after →
    .run ring ∈ after ∨ s.Due ring

/-- The last event of a history is either the one split at or comes after it. -/
theorem split_last {l before after : List Event} {w v : Event}
    (h : l ++ [w] = before ++ v :: after) :
    (w = v ∧ after = []) ∨ ∃ rest, after = rest ++ [w] ∧ l = before ++ v :: rest := by
  rcases List.eq_nil_or_concat after with rfl | ⟨rest, u, rfl⟩
  · obtain ⟨-, eq⟩ := List.append_inj' h rfl
    exact .inl ⟨by simpa using eq, rfl⟩
  · rw [List.concat_eq_append, ← List.cons_append, ← List.append_assoc] at h
    obtain ⟨left, eq⟩ := List.append_inj' h rfl
    exact .inr ⟨rest, by simpa using eq.symm, left⟩

/-- An event that is no interrupt leaves the interrupts where they are. -/
theorem Pending.emit {n : Nat} {s t : State} {w : Event} (pending : Pending n s)
    (trace : t.trace = s.trace ++ [w]) (no : w ≠ .interrupt)
    (due : ∀ ring < n, s.Due ring → t.Due ring ∨ w = .run ring) : Pending n t := by
  intro ring lt before after eq
  rw [trace] at eq
  rcases split_last eq with ⟨same, -⟩ | ⟨rest, rfl, old⟩
  · exact absurd same no
  · rcases pending ring lt before rest old with ran | was
    · exact .inl (List.mem_append_left _ ran)
    · rcases due ring lt was with still | rfl
      · exact .inr still
      · exact .inl (List.mem_append_right _ (List.mem_singleton_self _))

theorem Pending.interrupt {n : Nat} {s : State} (pending : Pending n s) (covered : Covered n s) :
    Pending n (ringRxHandler n s) := by
  have kept : ∀ ring < n, s.Due ring → (ringRxHandler n s).Due ring := by
    rintro ring lt (queued | received)
    · exact .inl (mem_submits.mpr (.inl queued))
    · exact .inr received
  intro ring lt before after eq
  rcases split_last eq with ⟨-, -⟩ | ⟨rest, rfl, old⟩
  · rcases covered ring lt with room | due
    · exact .inr (.inl (mem_submits.mpr (.inr ⟨lt, room⟩)))
    · exact .inr (kept ring lt due)
  · rcases pending ring lt before rest old with ran | due
    · exact .inl (List.mem_append_left _ ran)
    · exact .inr (kept ring lt due)

theorem Pending.task {n : Nat} {s : State} (pending : Pending n s) :
    Pending n (workQueueTask s) := by
  unfold workQueueTask
  cases task : s.task with
  | waiting =>
    cases queue : s.queue with
    | nil => exact pending
    | cons head rest =>
      intro ring lt before after eq
      rcases pending ring lt before after eq with ran | queued | received
      · exact .inl ran
      · rw [queue] at queued
        rcases List.mem_cons.mp queued with rfl | queued
        · exact .inr (.inr rfl)
        · exact .inr (.inl queued)
      · rw [task] at received
        cases received
  | received r =>
    refine pending.emit rfl (by simp) fun ring lt due => ?_
    rcases due with queued | received
    · exact .inl (.inl queued)
    · rw [task] at received
      cases received
      exact .inr rfl
  | running r =>
    intro ring lt before after eq
    rcases pending ring lt before after eq with ran | queued | received
    · exact .inl ran
    · exact .inr (.inl queued)
    · rw [task] at received
      cases received

theorem step_pending {n : Nat} {s : State} {cmd : Cmd} (pending : Pending n s)
    (covered : cmd = .interrupt → Covered n s) : Pending n (s.step n cmd) := by
  cases cmd with
  | interrupt => exact pending.interrupt (covered rfl)
  | slave r => exact pending.emit rfl (by simp) fun ring lt due => .inl due
  | task => exact pending.task

theorem run_pending {n : Nat} {s : State} {cmds : List Cmd} (pending : Pending n s)
    (covers : Covers n s cmds) : Pending n (s.run n cmds) := by
  induction cmds generalizing s with
  | nil => exact pending
  | cons cmd cmds ih => exact ih (step_pending pending covers.1) covers.2

theorem Pending.woken {n : Nat} {s : State} (pending : Pending n s) (idle : s.Idle) :
    Woken n s := by
  intro ring lt before after eq
  rcases pending ring lt before after eq with ran | queued | received
  · exact ran
  · rw [idle.1] at queued
    cases queued
  · rw [idle.2] at received
    cases received

/-- Each publication is announced by the run that follows its interrupt. -/
theorem Woken.announced {n : Nat} {s : State} (woken : Woken n s) : Announced n s := by
  intro ring lt before after eq interrupt
  obtain ⟨a, b, rfl⟩ := List.append_of_mem interrupt
  have ran := woken ring lt (before ++ .publish ring :: a) b (by rw [eq]; simp)
  exact List.mem_append_right _ (List.mem_cons_of_mem _ ran)

/-! ## An interrupt that is not covered -/

/-- The task's commands until its queue is empty. -/
def drain (s : State) : List Cmd :=
  (match s.task with
    | .waiting => []
    | .received _ => [.task, .task]
    | .running _ => [.task]) ++ s.queue.flatMap fun _ => [.task, .task, .task]

theorem run_append (n : Nat) (s : State) (a b : List Cmd) :
    s.run n (a ++ b) = (s.run n a).run n b := List.foldl_append

/-- A waiting task runs the queued rings in order and nothing else. -/
theorem run_queue (n : Nat) (queue : List Nat) (trace : List Event) :
    (State.mk queue .waiting trace).run n (queue.flatMap fun _ => [.task, .task, .task]) =
      ⟨[], .waiting, trace ++ queue.map .run⟩ := by
  induction queue generalizing trace with
  | nil => simp [State.run]
  | cons ring rest ih =>
    rw [List.flatMap_cons, run_append]
    refine (ih (trace ++ [.run ring])).trans ?_
    simp

/-- Draining starts the handlers that are due and no others. -/
theorem run_drain (n : Nat) (s : State) : ∃ runs, s.run n (drain s) =
    ⟨[], .waiting, s.trace ++ runs⟩ ∧ ∀ w ∈ runs, ∃ ring, w = .run ring ∧ s.Due ring := by
  have queued : ∀ w ∈ s.queue.map Event.run, ∃ ring, w = .run ring ∧ s.Due ring := by
    intro w hw
    obtain ⟨ring, mem, rfl⟩ := List.mem_map.mp hw
    exact ⟨ring, rfl, .inl mem⟩
  obtain ⟨queue, task, trace⟩ := s
  unfold drain
  rw [run_append]
  cases task with
  | waiting => exact ⟨queue.map .run, run_queue n queue trace, queued⟩
  | received ring =>
    refine ⟨.run ring :: queue.map .run, ?_, ?_⟩
    · refine (run_queue n queue (trace ++ [.run ring])).trans ?_
      simp
    · intro w hw
      rcases List.mem_cons.mp hw with rfl | hw
      · exact ⟨ring, rfl, .inr rfl⟩
      · exact queued w hw
  | running ring => exact ⟨queue.map .run, run_queue n queue trace, queued⟩

/-- A dropped ring whose handler is not due stays asleep when the queue has drained. -/
theorem uncovered_sleeps {n : Nat} {s : State} (uncovered : ¬Covered n s) :
    ((ringRxHandler n s).run n (drain (ringRxHandler n s))).Idle ∧
      ¬Woken n ((ringRxHandler n s).run n (drain (ringRxHandler n s))) := by
  obtain ⟨runs, eq, due⟩ := run_drain n (ringRxHandler n s)
  rw [eq]
  refine ⟨⟨rfl, rfl⟩, fun woken => uncovered fun ring lt => ?_⟩
  have ran := woken ring lt s.trace runs (by simp [ringRxHandler])
  obtain ⟨r, same, queued | received⟩ := due _ ran
  · cases same
    rcases mem_submits.mp queued with old | ⟨-, room⟩
    · exact .inr (.inl old)
    · exact .inl room
  · cases same
    exact .inr (.inr received)

theorem covers_append {n : Nat} {s : State} {a b : List Cmd} :
    Covers n s (a ++ b) ↔ Covers n s a ∧ Covers n (s.run n a) b := by
  induction a generalizing s with
  | nil => exact ⟨fun h => ⟨trivial, h⟩, And.right⟩
  | cons cmd a ih =>
    constructor
    · intro h
      exact ⟨⟨h.1, (ih.mp h.2).1⟩, (ih.mp h.2).2⟩
    · intro h
      exact ⟨h.1.1, ih.mpr ⟨h.1.2, h.2⟩⟩

theorem covers_quiet {n : Nat} {s : State} {cmds : List Cmd} (quiet : .interrupt ∉ cmds) :
    Covers n s cmds := by
  induction cmds generalizing s with
  | nil => trivial
  | cons cmd cmds ih =>
    rw [List.mem_cons, not_or] at quiet
    obtain ⟨ne, quiet⟩ := quiet
    exact ⟨fun h => absurd h.symm ne, ih quiet⟩

theorem drain_quiet (s : State) : .interrupt ∉ drain s := by
  unfold drain
  intro h
  rcases List.mem_append.mp h with h | h
  · cases task : s.task <;> simp [task] at h
  · obtain ⟨_, -, h⟩ := List.mem_flatMap.mp h
    simp at h

/-- While every interrupt is covered no ring sleeps through one, and the next
interrupt is slept through by no ring exactly if it is covered, too. -/
theorem covered_wakes (n : Nat) (cmds : List Cmd) (covers : Covers n .start cmds) :
    ((State.start.run n cmds).Idle → Woken n (State.start.run n cmds) ∧
      Announced n (State.start.run n cmds)) ∧
    (Covered n (State.start.run n cmds) ↔ ∀ more, .interrupt ∉ more →
      (State.start.run n (cmds ++ .interrupt :: more)).Idle →
      Woken n (State.start.run n (cmds ++ .interrupt :: more))) := by
  have pending : Pending n .start := by
    intro ring lt before after eq
    have := congrArg List.length eq
    simp [State.start] at this
  constructor
  · intro idle
    have woken := (run_pending pending covers).woken idle
    exact ⟨woken, woken.announced⟩
  · constructor
    · intro covered more quiet idle
      refine (run_pending pending ?_).woken idle
      exact covers_append.mpr ⟨covers, fun _ => covered, covers_quiet quiet⟩
    · intro h
      by_contra uncovered
      obtain ⟨idle, asleep⟩ := uncovered_sleeps uncovered
      have run : State.start.run n (cmds ++ .interrupt :: drain (ringRxHandler n
          (State.start.run n cmds))) = (ringRxHandler n (State.start.run n cmds)).run n
            (drain (ringRxHandler n (State.start.run n cmds))) := by
        rw [run_append]
        rfl
      have := h (drain (ringRxHandler n (State.start.run n cmds))) (drain_quiet _)
      rw [run] at this
      exact asleep (this idle)

/-- Two rings and a message on each. -/
theorem two_rings_wake : ∃ cmds, cmds = [.slave 0, .slave 1, .interrupt, .task, .task, .task,
      .task, .task, .task] ∧ (State.start.run 2 cmds).queue = [] ∧
    Woken 2 (State.start.run 2 cmds) ∧ Announced 2 (State.start.run 2 cmds) :=
  ⟨_, rfl, by decide, (covered_wakes 2 _ (by decide)).1 ⟨by decide, by decide⟩⟩

/-- Eight interrupts fill the queue. One more after each item leaves only ring 0 in it,
so that the item for the last message, of ring 1, is dropped. -/
def floodedCmds : List Cmd :=
  List.replicate 8 .interrupt ++
    (List.replicate 16 [Cmd.task, .task, .task, .interrupt]).flatten ++
    .slave 1 :: .interrupt :: List.replicate 48 .task

theorem flooded_ring_sleeps : (State.start.run 2 floodedCmds).Idle ∧
    ¬Woken 2 (State.start.run 2 floodedCmds) ∧ ¬Announced 2 (State.start.run 2 floodedCmds) := by
  have trace : (State.start.run 2 floodedCmds).trace =
      (State.start.run 2 floodedCmds).trace.take 40 ++
        .publish 1 :: .interrupt :: List.replicate 16 (.run 0) := by decide +kernel
  refine ⟨⟨by decide +kernel, by decide +kernel⟩, fun woken => ?_, fun announced => ?_⟩
  · have ran := woken 1 (by decide) ((State.start.run 2 floodedCmds).trace.take 40 ++ [.publish 1])
      (List.replicate 16 (.run 0)) (by rw [List.append_assoc]; exact trace)
    simp at ran
  · have ran := announced 1 (by decide) _ _ trace (List.mem_cons_self ..)
    simp at ran

end Qapp.RingWork
